import DesignTokens.Color.Oklch
import DesignTokens.Number.Machine

set_option autoImplicit false

namespace DesignTokens

structure Srgb where
  red : Nat
  green : Nat
  blue : Nat
  deriving DecidableEq

namespace Srgb

def pi : Float := 3.141592653589793

def toLinear (x : Float) : Float :=
  if x ≤ 0.04045 then x / 12.92 else Float.pow ((x + 0.055) / 1.055) 2.4

def ofLinear (x : Float) : Float :=
  if x ≤ 0.0031308 then 12.92 * x else 1.055 * Float.pow x (1.0 / 2.4) - 0.055

def channel (x : Float) : Nat :=
  ((((Binary64.ofFloat x) * 255).round.clamp 0 255).toIntWithin 0 255).toNat

def ofOklch (color : Oklch) : Srgb :=
  let l := color.lightness.toFloat / 100.0
  let chroma := if 0 < color.chroma then color.chroma.toFloat else 0.0
  let angle := color.hue.toFloat * (pi / 180.0)
  let a := Float.cos angle * chroma
  let b := Float.sin angle * chroma
  let cube (x : Float) := x * x * x
  let long := cube (l + 0.3963377774 * a + 0.2158037573 * b)
  let medium := cube (l - 0.1055613458 * a - 0.0638541728 * b)
  let short := cube (l - 0.0894841775 * a - 1.2914855480 * b)
  let red := 4.0767416621 * long - 3.3077115913 * medium + 0.2309699292 * short
  let green := -1.2684380046 * long + 2.6097574011 * medium - 0.3413193965 * short
  let blue := -0.0041960863 * long - 0.7034186147 * medium + 1.7076147010 * short
  ⟨channel (ofLinear red), channel (ofLinear green), channel (ofLinear blue)⟩

/-- The hue of a grey is zero or noise; its chroma is close to zero. -/
def toOklch (color : Srgb) : Oklch :=
  let light (n : Nat) := toLinear (Float.ofNat n / 255.0)
  let red := light color.red
  let green := light color.green
  let blue := light color.blue
  let long := Float.cbrt (0.4122214708 * red + 0.5363325363 * green + 0.0514459929 * blue)
  let medium := Float.cbrt (0.2119034982 * red + 0.6806995451 * green + 0.1073969566 * blue)
  let short := Float.cbrt (0.0883024619 * red + 0.2817188376 * green + 0.6299787005 * blue)
  let l := 0.2104542553 * long + 0.7936177850 * medium - 0.0040720468 * short
  let a := 1.9779984951 * long - 2.4285922050 * medium + 0.4505937099 * short
  let b := 0.0259040371 * long + 0.7827717662 * medium - 0.8086757660 * short
  ⟨.ofFloat (l * 100.0), .ofFloat (Float.sqrt (a * a + b * b)),
    Oklch.wrapHue (.ofFloat (Float.atan2 b a * (180.0 / pi)))⟩

end Srgb

end DesignTokens
