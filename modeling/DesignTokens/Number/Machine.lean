import DesignTokens.Number.Binary64

set_option autoImplicit false

namespace DesignTokens.Binary64

-- A magnitude without its sign: 52 stored bits under the exponent field.
def magnitudeBits (units : Nat) : Nat :=
  let shift := units.log2 - 52
  shift * twoTo 52 + units / twoTo shift

def infinityBits : Nat := 0x7ff * twoTo 52

def toBits : Binary64 → Nat
  | .finite s u _ => (if s then twoTo 63 else 0) + magnitudeBits u
  | .infinite s => (if s then twoTo 63 else 0) + infinityBits
  | .nan => infinityBits + twoTo 51

def ofBits (bits : Nat) : Binary64 :=
  let negative := bits / twoTo 63 % 2 == 1
  let exponent := bits / twoTo 52 % 2048
  let fraction := bits % twoTo 52
  let units := if exponent = 0 then fraction else (twoTo 52 + fraction) * twoTo (exponent - 1)
  if h : Representable units then .finite negative units h
  else if fraction = 0 then .infinite negative else .nan

def toFloat (x : Binary64) : Float := Float.ofBits (UInt64.ofNat x.toBits)

def ofFloat (x : Float) : Binary64 := ofBits x.toBits.toNat

end DesignTokens.Binary64
