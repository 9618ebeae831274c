import DesignTokens.Proofs.ColorTexts
import DesignTokens.Proofs.WholeNumbers

set_option autoImplicit false

namespace DesignTokens

open Binary64

namespace Binary64

theorem value_of_place {x : Binary64} {n d : ℕ} (positive : 0 < d)
    (units : (d : ℤ) * x.place = n * unitsPerOne) : x.value = n / d := by
  have size : (d : ℚ) ≠ 0 := Nat.cast_ne_zero.mpr positive.ne'
  have units : (d : ℚ) * x.place = n * unitsPerOne := by exact_mod_cast units
  rw [value, div_eq_div_iff unit_ne_zero size, mul_comm, units]

theorem ten_eq : (10 : Binary64) = .finite false (10 * unitsPerOne) (representable_whole (by decide)) :=
  ofNat_eq (show 10 ≤ 2049 by decide)

theorem value_ten : (10 : Binary64).value = 10 := value_ofNat (show 10 ≤ 2049 by decide)

theorem exists_units_of_value {x : Binary64} (finite : x.isFinite = true) (positive : 0 < x.value) :
    ∃ u h, x = .finite false u h := by
  obtain ⟨negative, u, h, rfl⟩ := exists_finite finite
  cases negative with
  | false => exact ⟨u, h, rfl⟩
  | true =>
    have below : value (.finite true u h) ≤ 0 := by
      rw [value_finite, factor, if_pos rfl, neg_one_mul, neg_nonpos]
      exact div_nonneg (Nat.cast_nonneg u) (Nat.cast_nonneg _)
    exact absurd positive (not_lt.mpr below)

end Binary64

namespace Oklch

def tenths (k : ℕ) : Binary64 := nearest false (k * unitsPerOne) 10

theorem tenths_near {k : ℕ} (small : k ≤ 1999) : Near (tenths k) (k / 10) := by
  have count : (k : ℚ) ≤ 1999 := by exact_mod_cast small
  have ratio : ((k * unitsPerOne : ℕ) : ℚ) / (10 : ℕ) / unitsPerOne = k / 10 := by
    rw [div_right_comm, Nat.cast_mul, mul_div_cancel_right₀ _ unit_ne_zero, Nat.cast_ofNat]
  have moderate : ((k * unitsPerOne : ℕ) : ℚ) / (10 : ℕ) / unitsPerOne ≤ 2048 := by
    rw [ratio]
    linarith
  have near := nearest_near false (by decide) moderate
  rwa [ratio, factor, if_neg Bool.false_ne_true, one_mul] at near

theorem tenths_lt {j k : ℕ} (less : j < k) (small : k ≤ 1999) : tenths j < tenths k := by
  have below := tenths_near (less.le.trans small)
  have above := tenths_near small
  refine (lt_iff_value _ _).mpr ⟨ne_nan_of_isFinite below.finite, ne_nan_of_isFinite above.finite, ?_⟩
  have step : (j : ℚ) + 1 ≤ k := by exact_mod_cast less
  have := below.high
  have := above.low
  linarith

theorem tenths_lt_iff {j k : ℕ} (smallJ : j ≤ 1999) (smallK : k ≤ 1999) :
    tenths j < tenths k ↔ j < k := by
  constructor
  · intro less
    by_contra other
    rcases (not_lt.mp other).eq_or_lt with same | more
    · exact ne_of_lt less (by rw [same])
    · exact ne_of_lt (lt_trans less (tenths_lt more smallJ)) rfl
  · intro less
    exact tenths_lt less smallK

structure Rounds (x : Binary64) (k : ℕ) : Prop where
  rounded : roundTenth x = tenths k
  small : k ≤ 1999
  low : 10 * x.value ≤ k + 501 / 1000
  high : k ≤ 10 * x.value + 501 / 1000

theorem roundTenth_finite {u v : ℕ} {hu : Representable u} {hv : Representable v}
    (scaled : Binary64.finite false u hu * 10 = .finite false v hv) :
    roundTenth (.finite false u hu) = tenths (wholes v) := by
  have solid : 10 * unitsPerOne ≠ 0 := Nat.mul_ne_zero (by decide) unitsPerOne_pos.ne'
  rw [roundTenth, scaled, round_finite, ten_eq]
  refine ((scaling_div _ _ solid).finite false _ _).trans ?_
  apply nearest_congr false (Nat.pos_of_ne_zero solid) (by decide)
  push_cast
  rw [mul_div_mul_right _ _ unit_ne_zero]

theorem exists_rounds {x : Binary64} (finite : x.isFinite = true) (positive : 0 < x.value)
    (moderate : x.value ≤ 1999 / 10 + 1 / 1000) : ∃ k, Rounds x k := by
  obtain ⟨u, hu, rfl⟩ := exists_units_of_value finite positive
  have product : |value (.finite false u hu) * (10 : Binary64).value| ≤ 2048 := by
    rw [value_ten, abs_of_pos (by linarith)]
    linarith
  obtain ⟨finiteProduct, low, high⟩ := mul_near finite (by decide +kernel) product
  obtain ⟨v, hv, scaled⟩ : ∃ v hv, Binary64.finite false u hu * 10 = .finite false v hv := by
    have form : Binary64.finite false u hu * 10 = nearest false (u * (10 * unitsPerOne)) unitsPerOne := by
      rw [ten_eq, mul_finite, Bool.bne_false]
    rw [form] at finiteProduct ⊢
    exact exists_nearest finiteProduct
  rw [value_ten, scaled, value_finite_false v hv] at low high
  obtain ⟨above, below⟩ := wholes_bounds v
  have small : wholes v ≤ 1999 := by
    have bound : (wholes v : ℚ) < 2000 := by linarith
    exact Nat.lt_succ_iff.mp (by exact_mod_cast bound)
  refine ⟨_, roundTenth_finite scaled, small, ?_, ?_⟩ <;> linarith

theorem nat_eq_of_near {a b : ℕ} (below : (a : ℚ) < b + 1) (above : (b : ℚ) < a + 1) : a = b := by
  have upper : a < b + 1 := by exact_mod_cast below
  have lower : b < a + 1 := by exact_mod_cast above
  omega

theorem rounds_tenths {k : ℕ} (small : k ≤ 1999) : Rounds (tenths k) k := by
  rcases Nat.eq_zero_or_pos k with rfl | positive
  · have nothing : (tenths 0).value = 0 := by
      rw [value_of_place (n := 0) (d := 1) Nat.one_pos (by decide +kernel), Nat.cast_zero, zero_div]
    refine ⟨by decide +kernel, by decide, ?_, ?_⟩ <;> rw [nothing] <;> norm_num
  · have least : (1 : ℚ) ≤ k := by exact_mod_cast positive
    have most : (k : ℚ) ≤ 1999 := by exact_mod_cast small
    obtain ⟨finite, low, high⟩ := tenths_near small
    obtain ⟨j, rounds⟩ := exists_rounds finite (by linarith) (by linarith)
    have above := rounds.high
    have below := rounds.low
    have same : j = k := nat_eq_of_near (by linarith) (by linarith)
    rwa [same] at rounds

theorem toInt64_whole {m : ℕ} (h : Representable (m * unitsPerOne)) (small : m ≤ 2049) :
    toInt64 (.finite false (m * unitsPerOne) h) = m := by
  have bound : (m : ℤ) ≤ twoTo 63 - 1 := by
    have := show (2049 : ℤ) ≤ twoTo 63 - 1 by decide
    omega
  rw [toInt64_multiple, min_eq_right bound]

theorem lightnessText_def (l : Binary64) :
    lightnessText l =
      if (roundTenth l).isWhole then toString (roundTenth l).toInt64 else (roundTenth l).toFixed 1 := rfl

theorem exists_whole {x : Binary64} {u : ℕ} {h : Representable u} (form : x = .finite false u h)
    (whole : x.isWhole = true) : ∃ m h, x = .finite false (m * unitsPerOne) h := by
  rw [form] at whole
  have units : u / unitsPerOne * unitsPerOne = u :=
    Nat.div_mul_cancel (Nat.dvd_of_mod_eq_zero (beq_iff_eq.mp whole))
  exact ⟨u / unitsPerOne, units.symm ▸ h, by simp only [form, units]⟩

-- The exact value of a number in tenths is so close to its count that the digit written is the count.
theorem halfEven_tenths {k w : ℕ} {hw : Representable w} (small : k ≤ 1999)
    (form : tenths k = .finite false w hw) : halfEven (w * tenTo 1) unitsPerOne = k := by
  have near := tenths_near small
  have closest := closestWhole_halfEven (w * tenTo 1) unitsPerOne unitsPerOne_pos
  generalize halfEven (w * tenTo 1) unitsPerOne = n at *
  have ratio : ((w * tenTo 1 : ℕ) : ℚ) / unitsPerOne = 10 * (w / unitsPerOne) := by
    rw [show tenTo 1 = 10 from rfl, Nat.cast_mul, Nat.cast_ofNat]
    ring
  rw [form] at near
  have low := near.low
  have high := near.high
  rw [value_finite_false] at low high
  rw [ratio] at closest
  have lower := closest.low
  have upper := closest.high
  exact nat_eq_of_near (by linarith) (by linarith)

theorem unsigned?_lightnessText {x : Binary64} {k : ℕ} (rounds : Rounds x k) :
    Decimal.unsigned? (lightnessText x).toList = some (tenths k) := by
  obtain ⟨w, hw, form⟩ : ∃ w hw, tenths k = .finite false w hw :=
    exists_nearest (tenths_near rounds.small).finite
  rw [lightnessText_def, rounds.rounded]
  by_cases whole : (tenths k).isWhole = true
  · obtain ⟨m, h, counted⟩ := exists_whole form whole
    have count : (k : ℚ) ≤ 1999 := by exact_mod_cast rounds.small
    have high := (tenths_near rounds.small).high
    rw [counted, value_whole] at high
    have bound : (m : ℚ) ≤ 2048 := by linarith
    have small : m ≤ 2048 := by exact_mod_cast bound
    have read := ofDecimal_moderate 0 (small.trans_lt (by decide)) (by decide)
    rw [Nat.cast_zero, neg_zero, show tenTo 0 = 1 from rfl, nearest_whole false (small.trans (by decide))] at read
    rw [if_pos whole, counted, toInt64_whole h (small.trans (by decide)), Decimal.unsigned?_toString, read]
  · have digits := unsigned?_toFixed Nat.one_pos w hw
    rw [halfEven_tenths rounds.small form, ← form] at digits
    rw [if_neg whole, digits]
    exact congrArg some (ofDecimal_moderate 1 (rounds.small.trans_lt (by decide)) (by decide))

end Oklch

end DesignTokens
