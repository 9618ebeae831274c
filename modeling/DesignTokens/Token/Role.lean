import DesignTokens.Color.Oklch
import DesignTokens.Scale
import DesignTokens.Token.Basic

set_option autoImplicit false

namespace DesignTokens

def paletteKey : String := "palette"

def unitsKey : String := "units"

structure Responsive where
  media : List (String × Token)
  -- Never blank.
  default : Option Scalar

inductive Role where
  | swatch (text : String)
  | scales (config : List (String × StepRange))
  | scalar (value : Scalar)
  | responsive (tuple : Responsive)
  | group (members : Group)
  | list (items : List Token)
  | blank

namespace Role

def swatch? (inPalette : Bool) : Scalar → Option String
  | .text s => if inPalette && (Oklch.read? s).isSome then some s else none
  | .number _ => none

def finite? (t : Token) : Option Binary64 := t.scalar?.bind Scalar.finite?

def stepRange? : Token → Option StepRange
  | .list [first, step, last] => do return ⟨← finite? first, ← finite? step, ← finite? last⟩
  | _ => none

def stepRanges? : Group → Option (List (String × StepRange))
  | [] => some []
  | (key, token) :: rest => do return (key, ← stepRange? token) :: (← stepRanges? rest)

/-- Not empty, under its own key, and three finite numbers per member; the keys are not checked. -/
def scales? (key : String) (members : Group) : Option (List (String × StepRange)) :=
  if key = unitsKey && !members.isEmpty then stepRanges? members else none

/-- Scalars by media name, then at most a scalar; a blank one is as good as none. -/
def responsive? : List Token → Option Responsive
  | [.group media] => if media.all (·.2.isScalar) then some ⟨media, none⟩ else none
  | [.group media, .scalar default] =>
      if media.all (·.2.isScalar) then
        some ⟨media, if default.isBlank then none else some default⟩
      else none
  | _ => none

def ofScalar (inPalette : Bool) (s : Scalar) : Role :=
  match swatch? inPalette s with
  | some text => .swatch text
  | none => if s.isBlank then .blank else .scalar s

def of (key : String) (inPalette : Bool) : Token → Role
  | .scalar s => ofScalar inPalette s
  | .group members =>
      match scales? key members with
      | some config => .scales config
      | none => .group members
  | .list items =>
      match responsive? items with
      | some tuple => .responsive tuple
      | none => .list items

end Role

end DesignTokens
