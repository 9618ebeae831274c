import DesignTokens.Fault
import DesignTokens.Number.Decimal
import DesignTokens.Number.Writing
import DesignTokens.Number.Rounding
import DesignTokens.Text.Basic
import DesignTokens.Text.Cut

set_option autoImplicit false

namespace DesignTokens

structure Oklch where
  lightness : Binary64
  chroma : Binary64
  hue : Binary64
  deriving DecidableEq

namespace Oklch

/-- Without a percent sign, a lightness of at most one is a fraction. -/
def lightness? (field : List Char) : Option Binary64 :=
  match Text.before? ['%'] field with
  | some percent => Decimal.unsigned? percent
  | none => (Decimal.unsigned? field).map fun raw => if raw ≤ 1 then raw * 100 else raw

def read? (text : String) : Option Oklch := do
  let inner ← Text.after? "oklch(".toList (Text.trim text.toList)
  match Text.words (← Text.before? [')'] inner) with
  | [l, c, h] => some ⟨← lightness? l, ← Decimal.unsigned? c, ← Decimal.unsigned? h⟩
  | _ => none

def read (text : String) : Except Fault Oklch :=
  match read? text with
  | some color => .ok color
  | none => .error (.notColor text)

def roundTenth (x : Binary64) : Binary64 := (x * 10).round / 10

def lightnessText (l : Binary64) : String :=
  let rounded := roundTenth l
  if rounded.isWhole then toString rounded.toInt64 else rounded.toFixed 1

def chromaText (c : Binary64) : String :=
  if c.isZero then "0" else c.toFixed (if c < 0.1 then 4 else 3)

def hueText (h : Binary64) : String :=
  if (h - h.round).abs < 0.001 then toString h.round.toInt64
  else Binary64.dropTrailingZeros (h.toFixed 3)

def write (color : Oklch) : String :=
  "oklch(" ++ lightnessText color.lightness ++ "% " ++ chromaText color.chroma ++ " " ++
    hueText color.hue ++ ")"

def wrapHue (h : Binary64) : Binary64 :=
  let wrapped := h.remainderUp 360
  if (360 : Binary64) ≤ wrapped then 0 else wrapped

end Oklch

end DesignTokens
