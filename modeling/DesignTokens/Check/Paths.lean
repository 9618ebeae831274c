import DesignTokens.Compile

set_option autoImplicit false

namespace DesignTokens.Check

def scalarPaths (path : List String) (inPalette : Bool) (s : Scalar) : List (List String) :=
  match Role.swatch? inPalette s with
  | some _ => ShadeScale.names.map fun shade => path ++ [shade]
  | none => if s.isBlank then [] else [path]

def scalePaths (path : List String) (config : List (String × StepRange)) : List (List String) :=
  match Scale.ofUnits config with
  | .ok all => all.flatMap fun (unit, scale) => scale.map fun (key, _) => path ++ [unit, key]
  | .error _ => []

mutual

def leafPaths (path : List String) (key : String) (inPalette : Bool) :
    Token → List (List String)
  | .scalar s => scalarPaths path inPalette s
  | .group members =>
      match Role.scales? key members with
      | some config => scalePaths path config
      | none => leafPathsIn path (key == paletteKey) members
  | .list items =>
      match Role.responsive? items with
      | some _ => [path]
      | none => leafPathsAt path (key == paletteKey) 0 items

def leafPathsIn (path : List String) (inPalette : Bool) :
    List (String × Token) → List (List String)
  | [] => []
  | (key, token) :: rest =>
      leafPaths (path ++ [key]) key inPalette token ++ leafPathsIn path inPalette rest

def leafPathsAt (path : List String) (inPalette : Bool) (index : Nat) :
    List Token → List (List String)
  | [] => []
  | token :: rest =>
      leafPaths (path ++ [toString index]) (toString index) inPalette token ++
        leafPathsAt path inPalette (index + 1) rest

end

def joined (separator : String) (path : List String) : String := String.intercalate separator path

def sharedProperty (first second property : String) : Finding where
  severity := .warning
  code := "dstokens::validate::path-collision"
  message := "'" ++ first ++ "' and '" ++ second ++ "' both compile to --" ++ property
  subject := some second
  help := some "Rename one of the keys; only the later value is kept"

def sharedPaths (seen : List (String × String)) : List (List String) → Report
  | [] => []
  | path :: rest =>
      let property := joined "-" path
      match OrderedMap.get? seen property with
      | some first =>
          sharedProperty first (joined "." path) property :: sharedPaths seen rest
      | none => sharedPaths ((property, joined "." path) :: seen) rest

def paths (tokens : Group) : Report := sharedPaths [] (leafPathsIn [] false tokens)

end DesignTokens.Check
