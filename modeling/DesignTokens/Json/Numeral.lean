import DesignTokens.Number.Decimal

set_option autoImplicit false

namespace DesignTokens.Json

structure Numeral where
  negative : Bool
  whole : List Char
  places : Option (List Char)
  exponent : Option Int
  deriving DecidableEq

namespace Numeral

def maxSignificand : Nat := twoTo 64 - 1

def fill (significand : Nat) : List Char → Nat × List Char
  | [] => (significand, [])
  | c :: rest =>
      let next := 10 * significand + (c.toNat - '0'.toNat)
      if next ≤ maxSignificand then fill next rest else (significand, c :: rest)

def powerOfTen (n : Nat) : Binary64 := .ofDecimal false 1 n

/--
A number moved by powers of ten of at most 308 each; a result beyond the largest number is none.
The second step downwards already reaches zero, where the descent ends.
-/
def scale (x : Binary64) (exponent : Int) : Nat → Option Binary64
  | 0 => some x
  | fuel + 1 =>
      if exponent.natAbs ≤ 308 then
        if 0 ≤ exponent then
          let moved := x * powerOfTen exponent.natAbs
          if moved.isFinite then some moved else none
        else some (x / powerOfTen exponent.natAbs)
      else if x.isZero then some x
      else if 0 ≤ exponent then none
      else scale (x / powerOfTen 308) (exponent + 308) fuel

def signed (negative : Bool) (x : Binary64) : Binary64 := if negative then -x else x

/--
Digits beyond those of a significand of 64 bits are dropped, and one multiplication or division by a power of
ten follows; so a number of more than 17 digits may end one step off the closest.
-/
def value? (n : Numeral) : Option Binary64 :=
  let (whole, overflow) := fill 0 n.whole
  match n.places, n.exponent, overflow with
  | none, none, [] => some (signed n.negative (.ofNat whole))
  | places, exponent, overflow =>
      let digits := places.getD []
      let (significand, dropped) := fill whole digits
      let shift : Int := overflow.length - (digits.length - dropped.length : Nat)
      (scale (.ofNat significand) (shift + exponent.getD 0) 4).map (signed n.negative)

def read? (text : List Char) : Option (Numeral × List Char) := do
  let (negative, body) := match text with
    | '-' :: rest => (true, rest)
    | _ => (false, text)
  let (whole, rest) := Decimal.digitRun body
  if whole.isEmpty || (whole.head? == some '0' && 1 < whole.length) then none
  let (places, rest) ← match rest with
    | '.' :: rest =>
        let (digits, rest) := Decimal.digitRun rest
        if digits.isEmpty then none else some (some digits, rest)
    | _ => some (none, rest)
  match rest with
  | 'e' :: rest | 'E' :: rest =>
      let (negativeExponent, rest) := Decimal.sign rest
      let (digits, rest) := Decimal.digitRun rest
      if digits.isEmpty then none
      else
        let size : Int := Decimal.value digits
        let exponent := if negativeExponent then -size else size
        some (⟨negative, whole, places, some exponent⟩, rest)
  | _ => some (⟨negative, whole, places, none⟩, rest)

end Numeral

end DesignTokens.Json
