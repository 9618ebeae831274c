import DesignTokens.Color.ShadeScale
import DesignTokens.Css.Sheet
import DesignTokens.Reference
import DesignTokens.ShortName
import DesignTokens.Token.Role

set_option autoImplicit false

namespace DesignTokens

structure Settings where
  pathPrefix : Option String
  scope : Option String
  media : List (String × String)
  deriving DecidableEq

def Settings.plain : Settings := ⟨none, none, []⟩

inductive Notice where
  | blankToken (property : String)
  | blankMedia (property media : String)
  | redeclared (property previous value : String)
  deriving DecidableEq

def authoredName (settings : Settings) (path : List String) : String :=
  let words := match settings.pathPrefix with
    | some text =>
        let kept := ((text.toList.dropWhile (· == '-')).reverse.dropWhile (· == '-')).reverse
        if kept.isEmpty then [] else [String.ofList kept]
    | none => []
  "--" ++ String.intercalate "-" (words ++ path)

structure Draft where
  names : NameTable
  sheet : Sheet
  registrations : Registrations
  notices : List Notice
  deriving DecidableEq

namespace Compile

def start (settings : Settings) : Draft := ⟨.empty settings.scope, .empty, [], []⟩

abbrev Step := ExceptT Fault (StateM Draft)

def note (notice : Notice) : Step Unit :=
  modify fun d => { d with notices := d.notices ++ [notice] }

def nameOf (property : String) : Step String := do
  let d ← get
  let (name, names) := d.names.assign property
  set { d with names := names }
  return name

def register (name value : String) : Step Unit :=
  match Registration.ofValue? value with
  | some r => modify fun d => { d with registrations := OrderedMap.insert d.registrations name r }
  | none => pure ()

/-- A root declaration. Two paths may share a property; the later value is kept, with a notice. -/
def declare (property name value : String) : Step Unit := do
  match OrderedMap.get? (← get).sheet.root name with
  | some previous => if previous ≠ value then note (.redeclared property previous value)
  | none => pure ()
  modify fun d => { d with sheet := d.sheet.declare name value }

def leaf (settings : Settings) (path : List String) (value : String) : Step Reference := do
  let property := authoredName settings path
  let name ← nameOf property
  register name value
  declare property name value
  return .use (VarCall.mk name (some value)).write

def mediaValue (settings : Settings) (property name : String) (entry : String × Token) :
    Step Unit := do
  let (media, token) := entry
  match OrderedMap.get? settings.media media, token with
  | none, _ => throw (.unknownMedia media property)
  | some query, .scalar value =>
      if value.isBlank then note (.blankMedia property media)
      else modify fun d => { d with sheet := d.sheet.declareUnder query name value.toText }
  | some _, _ => note (.blankMedia property media)

def responsive (settings : Settings) (path : List String) (tuple : Responsive) :
    Step Reference := do
  let property := authoredName settings path
  let name ← nameOf property
  tuple.media.forM (mediaValue settings property name)
  let fallback := tuple.default.map Scalar.toText
  match fallback with
  | some value => declare property name value
  | none => pure ()
  return .use (VarCall.mk name fallback).write

def generated (settings : Settings) (path : List String) : List (String × String) → Step References
  | [] => return []
  | (key, value) :: rest => do
      let reference ← leaf settings (path ++ [key]) value
      return (key, reference) :: (← generated settings path rest)

def scales (settings : Settings) (path : List String) :
    List (String × Scale) → Step References
  | [] => return []
  | (unit, scale) :: rest => do
      let members ← generated settings (path ++ [unit]) scale
      return (unit, .group members) :: (← scales settings path rest)

def scalar (settings : Settings) (path : List String) (inPalette : Bool) (s : Scalar) :
    Step (Option Reference) := do
  match Role.swatch? inPalette s with
  | some text =>
      return some (.group (← generated settings path (← liftExcept (ShadeScale.of text))))
  | none =>
      if s.isBlank then
        note (.blankToken (authoredName settings path))
        return none
      else return some (← leaf settings path s.toText)
where
  liftExcept {α : Type} : Except Fault α → Step α
    | .ok a => pure a
    | .error e => throw e

mutual

def token (settings : Settings) (path : List String) (key : String) (inPalette : Bool) :
    Token → Step (Option Reference)
  | .scalar s => scalar settings path inPalette s
  | .group members => do
      match Role.scales? key members with
      | some config =>
          match Scale.ofUnits config with
          | .ok all => return some (.group (← scales settings path all))
          | .error fault => throw fault
      | none => return some (.group (← group settings path (key == paletteKey) members))
  | .list items => do
      match Role.responsive? items with
      | some tuple => return some (← responsive settings path tuple)
      | none => return some (.group (← list settings path (key == paletteKey) 0 items))

def group (settings : Settings) (path : List String) (inPalette : Bool) :
    List (String × Token) → Step References
  | [] => return []
  | (key, t) :: rest => do
      let reference ← token settings (path ++ [key]) key inPalette t
      let others ← group settings path inPalette rest
      return (reference.map fun r => (key, r)).toList ++ others

def list (settings : Settings) (path : List String) (inPalette : Bool) (index : Nat) :
    List Token → Step References
  | [] => return []
  | t :: rest => do
      let key := toString index
      let reference ← token settings (path ++ [key]) key inPalette t
      let others ← list settings path inPalette (index + 1) rest
      return (reference.map fun r => (key, r)).toList ++ others

end

end Compile

structure Compilation where
  sheet : Sheet
  references : References
  registrations : Registrations
  -- Present once a property has a name.
  names : Option NameTable

def compileNoting (tokens : Group) (settings : Settings) :
    Except Fault Compilation × List Notice :=
  let (result, d) := (Compile.group settings [] false tokens).run.run (Compile.start settings)
  (result.map fun references =>
    ⟨d.sheet, references, d.registrations, if d.names.size = 0 then none else some d.names⟩,
    d.notices)

def compile (tokens : Group) (settings : Settings) : Except Fault Compilation :=
  (compileNoting tokens settings).1

namespace Compilation

def css (c : Compilation) : String := Css.text c.registrations c.sheet

def object (c : Compilation) : Json := Css.sheet c.registrations c.sheet

def nameEntries (c : Compilation) : List (String × String) :=
  (c.names.map NameTable.entries).getD []

end Compilation

end DesignTokens
