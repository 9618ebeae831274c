import DesignTokens.Proofs.NumberErrors

set_option autoImplicit false

namespace DesignTokens

namespace Binary64

theorem representable_count {k : ℕ} (few : k < twoTo 53) : Representable (k * unitsPerOne) := by
  have unit : twoTo 1074 = unitsPerOne := rfl
  have below : k * unitsPerOne < twoTo (53 + 1074) := by
    rw [twoTo_add, unit]
    exact Nat.mul_lt_mul_of_pos_right few unitsPerOne_pos
  have bounded : k * unitsPerOne < limit := by
    rw [limit_eq]
    exact below.trans_le (twoTo_le (show 53 + 1074 ≤ 2098 by decide))
  unfold limit at bounded
  refine ⟨bounded, Nat.mod_eq_zero_of_dvd ?_⟩
  have bits : (k * unitsPerOne).log2 - 52 ≤ 1074 := by
    rcases Nat.eq_zero_or_pos k with rfl | positive
    · simp
    · have short := log2_lt_of_lt_twoTo (Nat.mul_pos positive unitsPerOne_pos) below
      omega
  have divides := twoTo_dvd bits
  rw [unit] at divides
  exact divides.trans (Nat.dvd_mul_left unitsPerOne k)

theorem representable_whole {k : ℕ} (small : k ≤ 2049) : Representable (k * unitsPerOne) :=
  representable_count (small.trans_lt (by decide))

theorem nearest_whole (negative : Bool) {k : ℕ} (small : k ≤ 2049) :
    nearest negative (k * unitsPerOne) 1 = .finite negative (k * unitsPerOne) (representable_whole small) :=
  nearest_of_representable negative Nat.one_pos (representable_whole small) (by rw [Nat.cast_one, div_one])

theorem value_whole {k : ℕ} (h : Representable (k * unitsPerOne)) :
    value (.finite false (k * unitsPerOne) h) = k := by
  rw [value_finite_false, Nat.cast_mul, mul_div_cancel_right₀ _ unit_ne_zero]

theorem value_ofNat {k : ℕ} (small : k ≤ 2049) : (ofNat k).value = k := by
  rw [ofNat, nearest_whole false small, value_whole]

theorem ofNat_eq {k : ℕ} (small : k ≤ 2049) :
    ofNat k = .finite false (k * unitsPerOne) (representable_whole small) := nearest_whole false small

def wholes (u : ℕ) : ℕ := (2 * u + unitsPerOne) / (2 * unitsPerOne)

theorem wholes_eq {u k : ℕ} (low : 2 * (k * unitsPerOne) ≤ 2 * u + unitsPerOne)
    (high : 2 * u < 2 * (k * unitsPerOne) + unitsPerOne) : wholes u = k := by
  apply Nat.div_eq_of_lt_le
  · linarith
  · linarith

theorem wholes_multiple (k : ℕ) : wholes (k * unitsPerOne) = k := by
  have positive := unitsPerOne_pos
  apply wholes_eq
  · omega
  · omega

theorem whole_of_large {u : ℕ} (representable : Representable u) (large : twoTo 52 * unitsPerOne ≤ u) :
    unitsPerOne ∣ u := by
  have unit : twoTo 1074 = unitsPerOne := rfl
  have power : twoTo (1074 + 52) ≤ u := by
    rwa [twoTo_add, unit, Nat.mul_comm]
  have divides := twoTo_dvd (Nat.le_sub_of_add_le (le_log2_of_twoTo_le power))
  rw [unit] at divides
  exact divides.trans (Nat.dvd_of_mod_eq_zero representable.2)

theorem representable_wholes {u : ℕ} (representable : Representable u) :
    Representable (wholes u * unitsPerOne) := by
  rcases Nat.lt_or_ge u (twoTo 52 * unitsPerOne) with small | large
  · apply representable_count
    have positive := unitsPerOne_pos
    have count : wholes u ≤ twoTo 52 := by
      apply Nat.lt_succ_iff.mp
      apply (Nat.div_lt_iff_lt_mul (by omega)).mpr
      have split : (twoTo 52 + 1) * (2 * unitsPerOne) = 2 * (twoTo 52 * unitsPerOne) + 2 * unitsPerOne := by
        ring
      rw [Nat.succ_eq_add_one, split]
      omega
    exact count.trans_lt (twoTo_lt (show 52 < 53 by decide))
  · obtain ⟨k, units⟩ := exists_eq_mul_left_of_dvd (whole_of_large representable large)
    rw [units] at representable ⊢
    rwa [wholes_multiple]

theorem round_finite (negative : Bool) {u : ℕ} (h : Representable u) :
    Binary64.round (.finite negative u h) =
      .finite negative (wholes u * unitsPerOne) (representable_wholes h) := by
  rw [scaling_round.finite]
  exact nearest_of_representable negative Nat.one_pos (representable_wholes h)
    (by rw [Nat.cast_one, div_one, wholes])

theorem wholes_bounds (u : ℕ) :
    (wholes u : ℚ) ≤ u / unitsPerOne + 1 / 2 ∧ (u : ℚ) / unitsPerOne ≤ wholes u + 1 / 2 := by
  have positive := unitsPerOne_pos
  have unit := unit_pos
  have low := Nat.div_mul_le_self (2 * u + unitsPerOne) (2 * unitsPerOne)
  have high := Nat.lt_div_mul_add (a := 2 * u + unitsPerOne) (b := 2 * unitsPerOne) (by omega)
  rw [← wholes] at low high
  generalize wholes u = k at *
  have low : (k * (2 * unitsPerOne) : ℚ) ≤ 2 * u + unitsPerOne := by exact_mod_cast low
  have high : (2 * u + unitsPerOne : ℚ) ≤ k * (2 * unitsPerOne) + 2 * unitsPerOne := by
    exact_mod_cast high.le
  constructor
  · rw [div_add' _ _ _ unit.ne', le_div_iff₀ unit]
    linarith
  · rw [div_le_iff₀ unit]
    linarith

theorem abs_nearest (negative : Bool) (num den : ℕ) :
    (nearest negative num den).abs = nearest false num den := by
  rw [nearest_def, nearest_def]
  by_cases representable : Representable (roundedUnits num den)
  · rw [dif_pos representable, dif_pos representable, Binary64.abs]
  · rw [dif_neg representable, dif_neg representable, Binary64.abs]

theorem abs_sub {u v : ℕ} (hu : Representable u) (hv : Representable v) :
    (Binary64.finite false u hu - .finite false v hv).abs = nearest false ((u : ℤ) - v).natAbs 1 := by
  have opposite : Binary64.finite false u hu - .finite false v hv =
      .finite false u hu + .finite (!false) v hv := rfl
  have difference : signed false u + signed (!false) v = (u : ℤ) - v := rfl
  rw [opposite, add_finite, difference]
  split
  next same =>
    rw [same]
    exact (nearest_of_representable false Nat.one_pos representable_zero (by simp)).symm
  next => exact abs_nearest _ _ _

theorem toInt64_multiple (k : ℕ) (h : Representable (k * unitsPerOne)) :
    toInt64 (.finite false (k * unitsPerOne) h) = min ((twoTo 63 : ℤ) - 1) k := by
  have least : -(twoTo 63 : ℤ) ≤ min ((twoTo 63 : ℤ) - 1) k :=
    le_min (by decide) ((show -(twoTo 63 : ℤ) ≤ 0 by decide).trans (Int.natCast_nonneg k))
  rw [toInt64, toIntWithin, Nat.mul_div_cancel k unitsPerOne_pos]
  exact max_eq_right least

end Binary64

end DesignTokens
