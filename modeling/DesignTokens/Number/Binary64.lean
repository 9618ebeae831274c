set_option autoImplicit false

namespace DesignTokens

def twoTo (n : Nat) : Nat := Nat.pow 2 n

def tenTo (n : Nat) : Nat := Nat.pow 10 n

theorem twoTo_pos (n : Nat) : 0 < twoTo n := Nat.two_pow_pos n

theorem tenTo_pos (n : Nat) : 0 < tenTo n := Nat.pow_pos (by decide)

-- The number 1, in units of 2 ^ -1074, the least positive number.
def unitsPerOne : Nat := twoTo 1074

-- A magnitude of 53 significant bits below 2 ^ 1024, in units.
def Representable (units : Nat) : Prop :=
  units < twoTo 1024 * unitsPerOne ∧ units % twoTo (units.log2 - 52) = 0

instance (units : Nat) : Decidable (Representable units) :=
  inferInstanceAs (Decidable (_ ∧ _))

theorem representable_zero : Representable 0 := by decide +kernel

inductive Binary64 where
  | finite (negative : Bool) (units : Nat) (representable : Representable units)
  | infinite (negative : Bool)
  | nan
  deriving DecidableEq

namespace Binary64

def zero (negative : Bool) : Binary64 := .finite negative 0 representable_zero

instance : Inhabited Binary64 := ⟨zero false⟩

def halfEven (num den : Nat) : Nat :=
  let q := num / den
  let twice := 2 * (num % den)
  if den < twice ∨ (twice = den ∧ q % 2 = 1) then q + 1 else q

/--
The number closest to `num / den` units. The grid around a magnitude of `b` bits has spacing
`2 ^ (b - 53)`; what rounds to `2 ^ 1024` or beyond is infinite.
-/
def nearest (negative : Bool) (num den : Nat) : Binary64 :=
  let spacing := twoTo ((num / den).log2 - 52)
  let units := halfEven num (den * spacing) * spacing
  if h : Representable units then .finite negative units h else .infinite negative

def ofNat (n : Nat) : Binary64 := nearest false (n * unitsPerOne) 1

def ofDecimal (negative : Bool) (digits : Nat) (exponent : Int) : Binary64 :=
  let size : Int := digits.log2 * 30103 / 100000
  if digits = 0 ∨ size + exponent < -330 then zero negative
  else if 310 < size + exponent then .infinite negative
  else if exponent < 0 then nearest negative (digits * unitsPerOne) (tenTo exponent.natAbs)
  else nearest negative (digits * tenTo exponent.natAbs * unitsPerOne) 1

instance (n : Nat) : OfNat Binary64 n := ⟨ofNat n⟩

instance : OfScientific Binary64 where
  ofScientific digits down exponent := ofDecimal false digits (if down then -exponent else exponent)

def isFinite : Binary64 → Bool
  | .finite .. => true
  | _ => false

def neg : Binary64 → Binary64
  | .finite s u h => .finite (!s) u h
  | .infinite s => .infinite (!s)
  | .nan => .nan

def abs : Binary64 → Binary64
  | .finite _ u h => .finite false u h
  | .infinite _ => .infinite false
  | .nan => .nan

def signed (negative : Bool) (units : Nat) : Int :=
  if negative then -(units : Int) else units

def add : Binary64 → Binary64 → Binary64
  | .nan, _ | _, .nan => .nan
  | .infinite s, .infinite t => if s = t then .infinite s else .nan
  | .infinite s, _ => .infinite s
  | _, .infinite t => .infinite t
  | .finite s u _, .finite t v _ =>
      let sum := signed s u + signed t v
      if sum = 0 then zero (s && t) else nearest (sum < 0) sum.natAbs 1

def sub (a b : Binary64) : Binary64 := add a (neg b)

def mul : Binary64 → Binary64 → Binary64
  | .nan, _ | _, .nan => .nan
  | .infinite s, .infinite t => .infinite (s != t)
  | .infinite s, .finite t v _ => if v = 0 then .nan else .infinite (s != t)
  | .finite s u _, .infinite t => if u = 0 then .nan else .infinite (s != t)
  | .finite s u _, .finite t v _ => nearest (s != t) (u * v) unitsPerOne

def div : Binary64 → Binary64 → Binary64
  | .nan, _ | _, .nan => .nan
  | .infinite _, .infinite _ => .nan
  | .infinite s, .finite t _ _ => .infinite (s != t)
  | .finite s _ _, .infinite t => zero (s != t)
  | .finite s u _, .finite t v _ =>
      if v = 0 then if u = 0 then .nan else .infinite (s != t)
      else nearest (s != t) (u * unitsPerOne) v

instance : Neg Binary64 := ⟨neg⟩
instance : Add Binary64 := ⟨add⟩
instance : Sub Binary64 := ⟨sub⟩
instance : Mul Binary64 := ⟨mul⟩
instance : Div Binary64 := ⟨div⟩

def position? : Binary64 → Option Int
  | .finite s u _ => some (signed s u)
  | .infinite s => some (signed s (twoTo 1024 * unitsPerOne))
  | .nan => none

def less (a b : Binary64) : Bool :=
  match a.position?, b.position? with
  | some x, some y => x < y
  | _, _ => false

def atMost (a b : Binary64) : Bool :=
  match a.position?, b.position? with
  | some x, some y => x ≤ y
  | _, _ => false

instance : LT Binary64 := ⟨fun a b => less a b = true⟩
instance : LE Binary64 := ⟨fun a b => atMost a b = true⟩
instance (a b : Binary64) : Decidable (a < b) := inferInstanceAs (Decidable (less a b = true))
instance (a b : Binary64) : Decidable (a ≤ b) := inferInstanceAs (Decidable (atMost a b = true))

def isZero : Binary64 → Bool
  | .finite _ u _ => u == 0
  | _ => false

end Binary64

end DesignTokens
