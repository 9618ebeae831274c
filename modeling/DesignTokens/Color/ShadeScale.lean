import DesignTokens.Color.Oklch

set_option autoImplicit false

namespace DesignTokens.ShadeScale

def names : List String := ["lightest", "lighter", "light", "base", "dark", "darker", "darkest"]

def upper (l : Binary64) : Binary64 × Binary64 × Binary64 :=
  let light := Oklch.roundTenth (l + 10)
  if light < 88 ∧ light < 100 then (97, 88, light)
  else
    let spread (part : Binary64) := Oklch.roundTenth (l + (100 - l) * part)
    (spread 0.75, spread 0.5, spread 0.25)

def lower (l : Binary64) : Binary64 × Binary64 × Binary64 :=
  let dark := Oklch.roundTenth (l - 10)
  if (28 : Binary64) < dark ∧ (0 : Binary64) < dark then (dark, 28, 15)
  else
    let spread (part : Binary64) := Oklch.roundTenth (l * part)
    (spread 0.75, spread 0.5, spread 0.25)

def HasRoom (l : Binary64) : Prop := (1 : Binary64) ≤ l ∧ l ≤ 99

instance (l : Binary64) : Decidable (HasRoom l) := inferInstanceAs (Decidable (_ ∧ _))

def around (text : String) (base : Oklch) : List String :=
  let (lightest, lighter, light) := upper base.lightness
  let (dark, darker, darkest) := lower base.lightness
  let shade (l c shift : Binary64) := (Oklch.mk l c (Oklch.wrapHue (base.hue + shift))).write
  [shade lightest 0.015 (-5), shade lighter (base.chroma * 0.6) (-3),
    shade light base.chroma (-1), text, shade dark base.chroma 1,
    shade darker (base.chroma * 0.8) 3, shade darkest 0.02 5]

def of (text : String) : Except Fault (List (String × String)) := do
  let base ← Oklch.read text
  if HasRoom base.lightness then return names.zip (around text base)
  else throw (.shadeBase text base.lightness)

end DesignTokens.ShadeScale
