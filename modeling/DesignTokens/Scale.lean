import DesignTokens.Fault
import DesignTokens.Number.Rounding
import DesignTokens.OrderedMap

set_option autoImplicit false

namespace DesignTokens

inductive ScaleUnit where
  | rem
  | em
  | px
  | percentage
  | vh
  | vw
  | vmin
  | vmax
  | ch
  | ex
  deriving DecidableEq

namespace ScaleUnit

def all : List ScaleUnit := [.rem, .em, .px, .percentage, .vh, .vw, .vmin, .vmax, .ch, .ex]

def key : ScaleUnit → String
  | .rem => "rem"
  | .em => "em"
  | .px => "px"
  | .percentage => "percentage"
  | .vh => "vh"
  | .vw => "vw"
  | .vmin => "vmin"
  | .vmax => "vmax"
  | .ch => "ch"
  | .ex => "ex"

def suffix : ScaleUnit → String
  | .percentage => "%"
  | unit => unit.key

def ofKey (key : String) : Except Fault ScaleUnit :=
  match all.find? fun unit => unit.key == key with
  | some unit => .ok unit
  | none => .error (.unknownUnit key)

end ScaleUnit

structure StepRange where
  first : Binary64
  step : Binary64
  last : Binary64
  deriving DecidableEq

namespace StepRange

def fault (r : StepRange) (fault : RangeFault) : Fault := .range r.first r.step r.last fault

def isFinite (r : StepRange) : Bool := r.first.isFinite && r.step.isFinite && r.last.isFinite

def steps (r : StepRange) : Except Fault Nat :=
  let count := ((r.last - r.first) / r.step).round
  if !r.isFinite then .error (r.fault .notFinite)
  else if r.step ≤ 0 then .error (r.fault .stepNotPositive)
  else if r.step < 1e-10 then .error (r.fault .stepTooSmall)
  else if r.last < r.first then .error (r.fault .reversed)
  else if (10000 : Binary64) < count then .error (r.fault .tooManySteps)
  else .ok (count.toIntWithin 0 10000).toNat

/-- Ten decimal places, and no negative zero. -/
def roundValue (x : Binary64) : Binary64 :=
  let rounded := (x * 1e10).round / 1e10
  if rounded.isZero then 0 else rounded

def valuesFrom (r : StepRange) (before : Option Binary64) (i : Nat) :
    Nat → Except Fault (List Binary64)
  | 0 => .ok [roundValue r.last]
  | left + 1 => do
      let value := roundValue (r.first + .ofNat i * r.step)
      if roundValue r.last ≤ value then return [roundValue r.last]
      else if before.any fun b => value ≤ b then throw (r.fault .stepLost)
      else return value :: (← valuesFrom r (some value) (i + 1) left)

def values (r : StepRange) : Except Fault (List Binary64) := do valuesFrom r none 0 (← r.steps)

end StepRange

abbrev Scale := List (String × String)

namespace Scale

def entry (suffix : String) (value : Binary64) : String × String :=
  (value.toText, value.toText ++ suffix)

def of (r : StepRange) (suffix : String) : Except Fault Scale := do
  return OrderedMap.ofList ((← r.values).map (entry suffix))

def each : List (String × StepRange) → Except Fault (List (String × Scale))
  | [] => .ok []
  | (key, range) :: rest => do
      let unit ← ScaleUnit.ofKey key
      let scale ← Scale.of range unit.suffix
      return (key, scale) :: (← each rest)

def ofUnits (config : List (String × StepRange)) : Except Fault (List (String × Scale)) := do
  return OrderedMap.ofList (← each config)

end Scale

end DesignTokens
