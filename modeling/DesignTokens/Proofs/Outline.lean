import Mathlib.Tactic.Common
import DesignTokens.Compile

set_option autoImplicit false

namespace DesignTokens

inductive Content where
  | plain (value : String)
  | responsive (tuple : Responsive)

inductive Outline where
  | nil
  | leaf (key : String) (content : Content) (rest : Outline)
  | blank (key : String) (rest : Outline)
  | faulty (key : String) (fault : Fault) (rest : Outline)
  | group (key : String) (members rest : Outline)

namespace Outline

def generated (entries : List (String × String)) : Outline :=
  entries.foldr (fun entry rest => .leaf entry.1 (.plain entry.2) rest) .nil

def ofScales (scales : List (String × Scale)) : Outline :=
  scales.foldr (fun entry rest => .group entry.1 (generated entry.2) rest) .nil

def ofScalar (key : String) (inPalette : Bool) (rest : Outline) (s : Scalar) : Outline :=
  match Role.swatch? inPalette s with
  | some text =>
      match ShadeScale.of text with
      | .ok shades => .group key (generated shades) rest
      | .error fault => .faulty key fault rest
  | none => if s.isBlank then .blank key rest else .leaf key (.plain s.toText) rest

mutual

def ofToken (key : String) (inPalette : Bool) (rest : Outline) : Token → Outline
  | .scalar s => ofScalar key inPalette rest s
  | .group members =>
      match Role.scales? key members with
      | some config =>
          match Scale.ofUnits config with
          | .ok scales => .group key (ofScales scales) rest
          | .error fault => .faulty key fault rest
      | none => .group key (ofGroup (key == paletteKey) members) rest
  | .list items =>
      match Role.responsive? items with
      | some tuple => .leaf key (.responsive tuple) rest
      | none => .group key (ofList (key == paletteKey) 0 items) rest

def ofGroup (inPalette : Bool) : List (String × Token) → Outline
  | [] => .nil
  | (key, t) :: rest => ofToken key inPalette (ofGroup inPalette rest) t

def ofList (inPalette : Bool) (index : Nat) : List Token → Outline
  | [] => .nil
  | t :: rest => ofToken (toString index) inPalette (ofList inPalette (index + 1) rest) t

end

@[simp]
theorem generated_cons (key value : String) (rest : List (String × String)) :
    generated ((key, value) :: rest) = .leaf key (.plain value) (generated rest) := rfl

@[simp]
theorem ofScales_cons (key : String) (scale : Scale) (rest : List (String × Scale)) :
    ofScales ((key, scale) :: rest) = .group key (generated scale) (ofScales rest) := rfl

end Outline

namespace Compile

def content (settings : Settings) (path : List String) : Content → Step Reference
  | .plain value => leaf settings path value
  | .responsive tuple => responsive settings path tuple

def walk (settings : Settings) (path : List String) : Outline → Step References
  | .nil => return []
  | .leaf key c rest => do
      let reference ← content settings (path ++ [key]) c
      return (key, reference) :: (← walk settings path rest)
  | .blank key rest => do
      note (.blankToken (authoredName settings (path ++ [key])))
      walk settings path rest
  | .faulty _ fault _ => throw fault
  | .group key members rest => do
      let inner ← walk settings (path ++ [key]) members
      return (key, .group inner) :: (← walk settings path rest)

theorem generated_eq_walk (settings : Settings) (path : List String)
    (entries : List (String × String)) :
    generated settings path entries = walk settings path (.generated entries) := by
  induction entries with
  | nil => rfl
  | cons entry rest ih =>
    obtain ⟨key, value⟩ := entry
    simp only [generated, ih, Outline.generated_cons, walk, content]

theorem scales_eq_walk (settings : Settings) (path : List String)
    (all : List (String × Scale)) :
    scales settings path all = walk settings path (.ofScales all) := by
  induction all with
  | nil => rfl
  | cons entry rest ih =>
    obtain ⟨key, scale⟩ := entry
    simp only [scales, ih, generated_eq_walk, Outline.ofScales_cons, walk]

def member (settings : Settings) (path : List String) (key : String) (rest : Outline)
    (reference : Step (Option Reference)) : Step References := do
  let reference ← reference
  let others ← walk settings path rest
  return (reference.map fun r => (key, r)).toList ++ others

theorem scalar_eq_walk (settings : Settings) (path : List String) (key : String)
    (inPalette : Bool) (rest : Outline) (s : Scalar) :
    member settings path key rest (scalar settings (path ++ [key]) inPalette s) =
      walk settings path (.ofScalar key inPalette rest s) := by
  unfold scalar Outline.ofScalar
  cases swatch : Role.swatch? inPalette s with
  | some text =>
    cases shades : ShadeScale.of text with
    | ok shades => simp [member, scalar.liftExcept, generated_eq_walk, walk, shades]
    | error fault => simp [member, scalar.liftExcept, walk, shades]
  | none =>
    by_cases blank : s.isBlank
    · simp [member, walk, blank]
    · simp [member, walk, content, blank]

mutual

theorem token_eq_walk (settings : Settings) (path : List String) (key : String)
    (inPalette : Bool) (rest : Outline) (t : Token) :
    member settings path key rest (token settings (path ++ [key]) key inPalette t) =
      walk settings path (.ofToken key inPalette rest t) := by
  cases t with
  | scalar s =>
    rw [token, Outline.ofToken]
    exact scalar_eq_walk settings path key inPalette rest s
  | group members =>
    rw [token, Outline.ofToken]
    cases shorthand : Role.scales? key members with
    | some config =>
      cases expanded : Scale.ofUnits config with
      | ok all => simp [member, scales_eq_walk, walk, expanded]
      | error fault => simp [member, walk, expanded]
    | none =>
      simp [member, walk, group_eq_walk settings (path ++ [key]) (key == paletteKey) members]
  | list items =>
    rw [token, Outline.ofToken]
    cases tuple : Role.responsive? items with
    | some tuple => simp [member, walk, content]
    | none => simp [member, walk, list_eq_walk settings (path ++ [key]) (key == paletteKey) 0 items]

theorem group_eq_walk (settings : Settings) (path : List String) (inPalette : Bool)
    (members : List (String × Token)) :
    group settings path inPalette members = walk settings path (.ofGroup inPalette members) := by
  cases members with
  | nil => rfl
  | cons entry rest =>
    obtain ⟨key, t⟩ := entry
    rw [group, group_eq_walk settings path inPalette rest, Outline.ofGroup]
    exact token_eq_walk settings path key inPalette (.ofGroup inPalette rest) t

theorem list_eq_walk (settings : Settings) (path : List String) (inPalette : Bool) (index : Nat)
    (items : List Token) :
    list settings path inPalette index items =
      walk settings path (.ofList inPalette index items) := by
  cases items with
  | nil => rfl
  | cons t rest =>
    rw [list, list_eq_walk settings path inPalette (index + 1) rest, Outline.ofList]
    exact token_eq_walk settings path (toString index) inPalette
      (.ofList inPalette (index + 1) rest) t

end

end Compile

end DesignTokens
