import DesignTokens.Number.Binary64

set_option autoImplicit false

namespace DesignTokens

-- digits * 10 ^ exponent
structure Digits where
  digits : Nat
  exponent : Int
  deriving DecidableEq

namespace Digits

/--
The reals that round to a magnitude, as bounds over a common denominator: `low` and `high` count
quarter units, and both ends belong iff the last significant bit is even.
-/
structure Interval where
  low : Nat
  centre : Nat
  high : Nat
  closed : Bool

-- Below a power of two the grid is twice as fine.
def Interval.around (units : Nat) : Interval :=
  let bits := units.log2
  let spacing := twoTo (bits - 52)
  let below := if 52 < bits ∧ units = twoTo bits then spacing else 2 * spacing
  ⟨4 * units - below, 4 * units, 4 * units + 2 * spacing, units / spacing % 2 == 0⟩

def Interval.holds (i : Interval) (num den : Nat) : Bool :=
  if i.closed then i.low * den ≤ num && num ≤ i.high * den
  else i.low * den < num && num < i.high * den

-- One step of the grid `10 ^ exponent`, in quarter units, as a ratio.
def gridStep (exponent : Int) : Nat × Nat :=
  if exponent < 0 then (4 * unitsPerOne, tenTo exponent.natAbs)
  else (4 * unitsPerOne * tenTo exponent.natAbs, 1)

def onGrid? (i : Interval) (exponent : Int) : Option Nat :=
  let (step, den) := gridStep exponent
  let d := i.centre * den / step
  let down := i.holds (d * step) den
  let up := i.holds ((d + 1) * step) den
  let nearerUp := step ≤ 2 * (i.centre * den - d * step)
  if up && (!down || nearerUp) then some (d + 1) else if down then some d else none

def descend (i : Interval) (exponent : Int) : Nat → Digits
  | 0 => ⟨0, 0⟩
  | fuel + 1 =>
      match onGrid? i exponent with
      | some d => ⟨d, exponent⟩
      | none => descend i (exponent - 1) fuel

/--
The coarsest decimal grid with a point in the interval. The first grid tried has a step above the
number, and 17 digits always suffice, so at most twenty grids are tried.
-/
def of (units : Nat) : Digits :=
  if units = 0 then ⟨0, 0⟩
  else
    let start : Int := ((units.log2 : Int) - 1073) * 30103 / 100000 + 1
    descend (Interval.around units) start 22

def toText (d : Digits) : String :=
  let body := Nat.toDigits 10 d.digits
  if d.exponent < 0 then
    let places := d.exponent.natAbs
    let padded := List.replicate (places + 1 - body.length) '0' ++ body
    let whole := padded.length - places
    String.ofList (padded.take whole ++ '.' :: padded.drop whole)
  else String.ofList (body ++ List.replicate d.exponent.natAbs '0')

end Digits

def Binary64.toText : Binary64 → String
  | .finite s u _ => (if s then "-" else "") ++ (Digits.of u).toText
  | .infinite s => if s then "-inf" else "inf"
  | .nan => "NaN"

namespace Binary64

def toFixed (places : Nat) : Binary64 → String
  | .finite s u _ =>
      let digits := halfEven (u * tenTo places) unitsPerOne
      (if s then "-" else "") ++ Digits.toText ⟨digits, -places⟩
  | x => x.toText

def dropTrailingZeros (text : String) : String :=
  let chars := text.toList
  if chars.contains '.' then
    let kept := chars.reverse.dropWhile (· == '0')
    String.ofList (kept.dropWhile (· == '.')).reverse
  else text

end Binary64

end DesignTokens
