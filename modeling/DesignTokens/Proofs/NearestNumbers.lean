import Mathlib.Algebra.Order.Field.Rat
import Mathlib.Data.Nat.Cast.Field
import Mathlib.Data.Nat.Log
import Mathlib.Tactic.FieldSimp
import Mathlib.Tactic.Linarith
import Mathlib.Tactic.NormNum
import Mathlib.Tactic.Positivity
import Mathlib.Tactic.Ring
import DesignTokens.Number.Rounding

set_option autoImplicit false

namespace DesignTokens

theorem twoTo_eq (n : Nat) : twoTo n = 2 ^ n := rfl

theorem tenTo_eq (n : Nat) : tenTo n = 10 ^ n := rfl

theorem twoTo_add (m n : Nat) : twoTo (m + n) = twoTo m * twoTo n := Nat.pow_add 2 m n

theorem twoTo_le {m n : Nat} (le : m ≤ n) : twoTo m ≤ twoTo n :=
  Nat.pow_le_pow_right (by decide) le

theorem twoTo_lt {m n : Nat} (less : m < n) : twoTo m < twoTo n :=
  Nat.pow_lt_pow_right (by decide) less

theorem twoTo_dvd {m n : Nat} (le : m ≤ n) : twoTo m ∣ twoTo n := Nat.pow_dvd_pow 2 le

theorem log2_lt_of_lt_twoTo {u bits : ℕ} (positive : 0 < u) (less : u < twoTo bits) :
    u.log2 < bits := (Nat.log2_lt (by omega)).mpr less

theorem le_log2_of_twoTo_le {u bits : ℕ} (le : twoTo bits ≤ u) : bits ≤ u.log2 :=
  (Nat.le_log2 ((twoTo_pos bits).trans_le le).ne').mpr le

theorem unitsPerOne_pos : 0 < unitsPerOne := twoTo_pos 1074

theorem unit_pos : (0 : ℚ) < unitsPerOne := Nat.cast_pos.mpr unitsPerOne_pos

theorem unit_ne_zero : (unitsPerOne : ℚ) ≠ 0 := unit_pos.ne'

namespace Binary64

@[irreducible]
def limit : Nat := twoTo 1024 * unitsPerOne

theorem limit_eq : limit = twoTo 2098 := by
  unfold limit unitsPerOne
  exact (twoTo_add 1024 1074).symm

theorem limit_pos : 0 < limit := by
  rw [limit_eq]
  exact twoTo_pos 2098

theorem lt_limit {u : ℕ} (representable : Representable u) : u < limit := by
  unfold limit
  exact representable.1

/-- The whole number closest to a ratio, the even one of two. -/
structure ClosestWhole (x : ℚ) (n : ℕ) : Prop where
  low : (n : ℚ) ≤ x + 1 / 2
  high : x ≤ n + 1 / 2
  even : (n : ℚ) = x + 1 / 2 ∨ x = n + 1 / 2 → n % 2 = 0

theorem half_lt_div_iff (a : Nat) {den : Nat} (positive : 0 < den) :
    (1 : ℚ) / 2 < a / den ↔ den < 2 * a := by
  have size : (0 : ℚ) < den := by exact_mod_cast positive
  rw [lt_div_iff₀ size, ← Nat.cast_lt (α := ℚ)]
  push_cast
  constructor <;> intro h <;> linarith

theorem div_eq_half_iff (a : Nat) {den : Nat} (positive : 0 < den) :
    (a : ℚ) / den = 1 / 2 ↔ 2 * a = den := by
  have size : (den : ℚ) ≠ 0 := by exact_mod_cast positive.ne'
  rw [div_eq_iff size, ← Nat.cast_inj (R := ℚ)]
  push_cast
  constructor <;> intro h <;> linarith

theorem div_eq_add_fraction (num : Nat) {den : Nat} (positive : 0 < den) :
    (num : ℚ) / den = (num / den : ℕ) + (num % den : ℕ) / den := by
  have size : (den : ℚ) ≠ 0 := by exact_mod_cast positive.ne'
  have parts : (den : ℚ) * (num / den : ℕ) + (num % den : ℕ) = num := by
    exact_mod_cast Nat.div_add_mod num den
  rw [← parts]
  field_simp

theorem closestWhole_halfEven (num den : Nat) (positive : 0 < den) :
    ClosestWhole (num / den) (halfEven num den) := by
  have below : ((num % den : ℕ) : ℚ) / den < 1 := by
    rw [div_lt_one (by exact_mod_cast positive)]
    exact_mod_cast Nat.mod_lt num positive
  have above : (0 : ℚ) ≤ (num % den : ℕ) / den := by positivity
  have half_lt := half_lt_div_iff (num % den) positive
  have half_eq := div_eq_half_iff (num % den) positive
  rw [div_eq_add_fraction num positive, halfEven]
  generalize ((num % den : ℕ) : ℚ) / den = fraction at *
  generalize num / den = whole at *
  by_cases up : den < 2 * (num % den) ∨ (2 * (num % den) = den ∧ whole % 2 = 1)
  next =>
    have far : 1 / 2 ≤ fraction := by
      rcases up with more | ⟨tie, _⟩
      · exact (half_lt.mpr more).le
      · exact (half_eq.mpr tie).ge
    simp only [if_pos up]
    refine ⟨by push_cast; linarith, by push_cast; linarith, fun tie => ?_⟩
    have same : fraction = 1 / 2 := by
      push_cast at tie
      rcases tie with tie | tie <;> linarith
    have odd := up.resolve_left (by rw [← half_lt]; linarith)
    omega
  next =>
    have near : fraction ≤ 1 / 2 := by
      by_contra far
      exact up (.inl (half_lt.mp (not_le.mp far)))
    simp only [if_neg up]
    refine ⟨by linarith, by linarith, fun tie => ?_⟩
    have same : fraction = 1 / 2 := by
      rcases tie with tie | tie <;> linarith
    have tied := half_eq.mp same
    omega

theorem ClosestWhole.mono {x y : ℚ} {m n : ℕ} (left : ClosestWhole x m) (right : ClosestWhole y n)
    (le : x ≤ y) : m ≤ n := by
  by_contra more
  have step : (n : ℚ) + 1 ≤ m := by exact_mod_cast not_le.mp more
  have hx := left.low
  have hy := right.high
  -- Both are ties between the same two neighbours, and these are not both even.
  have same : m = n + 1 := by
    have : (m : ℚ) = n + 1 := by linarith
    exact_mod_cast this
  have even_m := left.even (.inl (by linarith))
  have even_n := right.even (.inr (by linarith))
  omega

theorem ClosestWhole.of_nat (n : ℕ) : ClosestWhole n n :=
  ⟨by linarith, by linarith, fun tie => by rcases tie with tie | tie <;> linarith⟩

/--
Rounding to 53 bits: `u` is the multiple of `2 ^ e` closest to `x`, where `2 ^ e` is the spacing of the
grid around `x`.
-/
structure ClosestAt (x : ℚ) (u e n : ℕ) : Prop where
  units : u = n * 2 ^ e
  closest : ClosestWhole (x / 2 ^ e) n
  below : x < 2 ^ (53 + e)
  above : e = 0 ∨ 2 ^ (52 + e) ≤ x

def Closest (x : ℚ) (u : ℕ) : Prop := ∃ e n, ClosestAt x u e n

def roundedUnits (num den : ℕ) : ℕ :=
  let spacing := twoTo ((num / den).log2 - 52)
  halfEven num (den * spacing) * spacing

theorem nearest_def (negative : Bool) (num den : ℕ) :
    nearest negative num den =
      if h : Representable (roundedUnits num den) then .finite negative (roundedUnits num den) h
      else .infinite negative := rfl

theorem closest_roundedUnits (num den : ℕ) (positive : 0 < den) :
    Closest (num / den) (roundedUnits num den) := by
  have size : (0 : ℚ) < den := by exact_mod_cast positive
  refine ⟨(num / den).log2 - 52, _, rfl, ?_, ?_, ?_⟩
  · have closest := closestWhole_halfEven num (den * twoTo ((num / den).log2 - 52))
      (Nat.mul_pos positive (twoTo_pos _))
    rw [twoTo_eq] at closest
    push_cast at closest
    rwa [← div_div] at closest
  · have bits : num / den < 2 ^ (53 + ((num / den).log2 - 52)) :=
      calc num / den < 2 ^ ((num / den).log2 + 1) := Nat.lt_log2_self
        _ ≤ 2 ^ (53 + ((num / den).log2 - 52)) := Nat.pow_le_pow_right (by decide) (by omega)
    rw [div_lt_iff₀ size]
    exact_mod_cast (Nat.div_lt_iff_lt_mul positive).mp bits
  · rcases Nat.eq_zero_or_pos ((num / den).log2 - 52) with fine | coarse
    · exact .inl fine
    · have bits : 2 ^ (52 + ((num / den).log2 - 52)) ≤ num / den := by
        rw [show 52 + ((num / den).log2 - 52) = (num / den).log2 by omega]
        apply Nat.log2_self_le
        intro nothing
        simp [nothing] at coarse
      rw [le_div_iff₀ size]
      exact .inr (by exact_mod_cast (Nat.le_div_iff_mul_le positive).mp bits)

namespace ClosestAt

variable {x y : ℚ} {u v d e m n : ℕ}

theorem count_le (found : ClosestAt x u e n) : n ≤ 2 ^ 53 := by
  have bound : x / 2 ^ e < 2 ^ 53 := by
    rw [div_lt_iff₀ (by positivity), ← pow_add]
    exact found.below
  have low := found.closest.low
  have below : (n : ℚ) < 2 ^ 53 + 1 := by linarith
  have small : n < 2 ^ 53 + 1 := by exact_mod_cast below
  omega

theorem le_count (found : ClosestAt x u e n) (coarse : e ≠ 0) : 2 ^ 52 ≤ n := by
  have bound : (2 : ℚ) ^ 52 ≤ x / 2 ^ e := by
    rw [le_div_iff₀ (by positivity), ← pow_add]
    exact found.above.resolve_left coarse
  have high := found.closest.high
  have above : (2 : ℚ) ^ 52 < n + 1 := by linarith
  have large : 2 ^ 52 < n + 1 := by exact_mod_cast above
  omega

theorem spacing_le (left : ClosestAt x u d m) (right : ClosestAt y v e n) (le : x ≤ y) : d ≤ e := by
  rcases left.above with fine | above
  · omega
  · have between : (2 : ℚ) ^ (52 + d) < 2 ^ (53 + e) := (above.trans le).trans_lt right.below
    have exponents := (pow_lt_pow_iff_right₀ (by norm_num)).mp between
    omega

theorem mono (left : ClosestAt x u d m) (right : ClosestAt y v e n) (le : x ≤ y) : u ≤ v := by
  rw [left.units, right.units]
  rcases (spacing_le left right le).eq_or_lt with rfl | finer
  · have counts : m ≤ n := by
      apply left.closest.mono right.closest
      gcongr
    gcongr
  -- A power of two lies between the two, and both grids hold it.
  · calc m * 2 ^ d ≤ 2 ^ 53 * 2 ^ d := Nat.mul_le_mul_right _ left.count_le
      _ = 2 ^ (53 + d) := (pow_add 2 53 d).symm
      _ ≤ 2 ^ (52 + e) := Nat.pow_le_pow_right (by decide) (by omega)
      _ = 2 ^ 52 * 2 ^ e := pow_add 2 52 e
      _ ≤ n * 2 ^ e := Nat.mul_le_mul_right _ (right.le_count (by omega))

theorem representable (found : ClosestAt x u e n) (bounded : u < limit) : Representable u := by
  unfold limit at bounded
  refine ⟨bounded, Nat.mod_eq_zero_of_dvd ?_⟩
  have units := found.units
  rcases found.count_le.eq_or_lt with full | less
  · have power : u = 2 ^ (53 + e) := by rw [units, full, pow_add]
    rw [power, Nat.log2_two_pow]
    exact Nat.pow_dvd_pow 2 (by omega)
  · have small : u < 2 ^ (53 + e) := by
      rw [units, pow_add]
      exact Nat.mul_lt_mul_of_pos_right less (by positivity)
    have bits : u.log2 - 52 ≤ e := by
      rcases Nat.eq_zero_or_pos u with rfl | positive
      · simp
      · have := (Nat.log2_lt (by omega)).mpr small
        omega
    exact (twoTo_dvd bits).trans ⟨n, by rw [units, twoTo_eq, Nat.mul_comm]⟩

end ClosestAt

theorem Closest.mono {x y : ℚ} {u v : ℕ} (left : Closest x u) (right : Closest y v) (le : x ≤ y) :
    u ≤ v := by
  obtain ⟨d, m, left⟩ := left
  obtain ⟨e, n, right⟩ := right
  exact left.mono right le

theorem Closest.unique {x : ℚ} {u v : ℕ} (left : Closest x u) (right : Closest x v) : u = v :=
  Nat.le_antisymm (left.mono right le_rfl) (right.mono left le_rfl)

theorem Closest.of_representable {u : ℕ} (representable : Representable u) : Closest u u := by
  have onGrid : u % 2 ^ (u.log2 - 52) = 0 := representable.2
  refine ⟨u.log2 - 52, u / 2 ^ (u.log2 - 52), ?_, ?_, ?_, ?_⟩
  · exact (Nat.div_mul_cancel (Nat.dvd_of_mod_eq_zero onGrid)).symm
  · have whole : (u : ℚ) / 2 ^ (u.log2 - 52) = (u / 2 ^ (u.log2 - 52) : ℕ) := by
      rw [Nat.cast_div (Nat.dvd_of_mod_eq_zero onGrid) (by positivity)]
      push_cast
      rfl
    rw [whole]
    exact .of_nat _
  · have bits : u < 2 ^ (53 + (u.log2 - 52)) :=
      calc u < 2 ^ (u.log2 + 1) := Nat.lt_log2_self
        _ ≤ 2 ^ (53 + (u.log2 - 52)) := Nat.pow_le_pow_right (by decide) (by omega)
    exact_mod_cast bits
  · rcases Nat.eq_zero_or_pos (u.log2 - 52) with fine | coarse
    · exact .inl fine
    · have bits : 2 ^ (52 + (u.log2 - 52)) ≤ u := by
        rw [show 52 + (u.log2 - 52) = u.log2 by omega]
        apply Nat.log2_self_le
        rintro rfl
        simp at coarse
      exact .inr (by exact_mod_cast bits)

theorem closest_zero : Closest 0 0 := by
  have closest := Closest.of_representable representable_zero
  rwa [Nat.cast_zero] at closest

theorem nearest_cases (negative : Bool) (num den : ℕ) (positive : 0 < den) :
    ∃ u, Closest (num / den) u ∧
      ((∃ h : Representable u, nearest negative num den = .finite negative u h) ∨
        (limit ≤ u ∧ nearest negative num den = .infinite negative)) := by
  obtain ⟨e, n, closest⟩ := closest_roundedUnits num den positive
  refine ⟨roundedUnits num den, ⟨e, n, closest⟩, ?_⟩
  rw [nearest_def]
  by_cases representable : Representable (roundedUnits num den)
  · rw [dif_pos representable]
    exact .inl ⟨representable, rfl⟩
  · rw [dif_neg representable]
    refine .inr ⟨?_, rfl⟩
    rcases Nat.lt_or_ge (roundedUnits num den) limit with bounded | large
    · exact absurd (closest.representable bounded) representable
    · exact large

theorem nearest_eq {negative : Bool} {num den u : ℕ} (positive : 0 < den)
    (closest : Closest (num / den) u) (bounded : u < limit) :
    ∃ h : Representable u, nearest negative num den = .finite negative u h := by
  obtain ⟨v, other, ⟨h, finite⟩ | ⟨large, _⟩⟩ := nearest_cases negative num den positive
  · obtain rfl := closest.unique other
    exact ⟨h, finite⟩
  · obtain rfl := closest.unique other
    omega

theorem nearest_congr (negative : Bool) {num den num' den' : ℕ} (positive : 0 < den)
    (positive' : 0 < den') (same : (num : ℚ) / den = num' / den') :
    nearest negative num den = nearest negative num' den' := by
  obtain ⟨u, closest, value⟩ := nearest_cases negative num den positive
  obtain ⟨v, closest', value'⟩ := nearest_cases negative num' den' positive'
  rw [same] at closest
  obtain rfl := closest.unique closest'
  rcases value with ⟨h, value⟩ | ⟨large, value⟩ <;> rcases value' with ⟨h', value'⟩ | ⟨large', value'⟩
  · rw [value, value']
  · exact absurd (lt_limit h) (by omega)
  · exact absurd (lt_limit h') (by omega)
  · rw [value, value']

theorem nearest_of_representable (negative : Bool) {num den u : ℕ} (positive : 0 < den)
    (representable : Representable u) (ratio : (num : ℚ) / den = u) :
    nearest negative num den = .finite negative u representable := by
  have closest : Closest (num / den) u := by
    rw [ratio]
    exact .of_representable representable
  exact (nearest_eq positive closest (lt_limit representable)).2

end Binary64

end DesignTokens
