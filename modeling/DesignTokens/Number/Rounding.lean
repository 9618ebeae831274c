import DesignTokens.Number.Binary64

set_option autoImplicit false

namespace DesignTokens.Binary64

def round : Binary64 → Binary64
  | .finite s u _ => nearest s ((2 * u + unitsPerOne) / (2 * unitsPerOne) * unitsPerOne) 1
  | x => x

def isWhole : Binary64 → Bool
  | .finite _ u _ => u % unitsPerOne == 0
  | _ => false

def toIntWithin (low high : Int) : Binary64 → Int
  | .finite s u _ => max low (min high (signed s (u / unitsPerOne)))
  | .infinite s => if s then low else high
  | .nan => 0

def toInt64 : Binary64 → Int := toIntWithin (-(twoTo 63 : Int)) (twoTo 63 - 1)

def remainder : Binary64 → Binary64 → Binary64
  | .finite s u _, .finite _ v _ => if v = 0 then .nan else nearest s (u % v) 1
  | .finite s u h, .infinite _ => .finite s u h
  | _, _ => .nan

def remainderUp (a b : Binary64) : Binary64 :=
  let r := remainder a b
  if r < 0 then r + abs b else r

def clamp (x low high : Binary64) : Binary64 :=
  if x < low then low else if high < x then high else x

end DesignTokens.Binary64
