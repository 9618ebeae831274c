import DesignTokens.Proofs.NumberOrder

set_option autoImplicit false

namespace DesignTokens

namespace Binary64

theorem ClosestAt.half_step {x : ℚ} {u e n : ℕ} (found : ClosestAt x u e n) :
    (u : ℚ) ≤ x + 2 ^ e / 2 ∧ x ≤ u + 2 ^ e / 2 := by
  have step : (0 : ℚ) < 2 ^ e := by positivity
  have units : (u : ℚ) = n * 2 ^ e := by exact_mod_cast found.units
  have low := mul_le_mul_of_nonneg_right found.closest.low step.le
  have high := mul_le_mul_of_nonneg_right found.closest.high step.le
  rw [add_mul, div_mul_cancel₀ x step.ne', one_div_mul_eq_div] at low
  rw [add_mul, div_mul_cancel₀ x step.ne', one_div_mul_eq_div] at high
  rw [units]
  exact ⟨low, high⟩

theorem Closest.error {x : ℚ} {u : ℕ} (closest : Closest x u) (nonneg : 0 ≤ x) :
    (u : ℚ) ≤ x + (x / 2 ^ 53 + 1 / 2) ∧ x ≤ u + (x / 2 ^ 53 + 1 / 2) := by
  obtain ⟨e, n, found⟩ := closest
  obtain ⟨low, high⟩ := found.half_step
  have half : (2 : ℚ) ^ e / 2 ≤ x / 2 ^ 53 + 1 / 2 := by
    rcases found.above with fine | above
    · rw [fine, pow_zero]
      linarith
    · rw [pow_add] at above
      linarith
  constructor <;> linarith

theorem pow_le_unitsPerOne : 2 ^ 60 ≤ unitsPerOne := twoTo_le (show 60 ≤ 1074 by decide)

theorem moderate_lt_limit : 2049 * unitsPerOne < limit := by
  have more : 2049 < twoTo 1024 :=
    calc 2049 < twoTo 12 := by decide
      _ ≤ twoTo 1024 := twoTo_le (by decide)
  have scaled := Nat.mul_lt_mul_of_pos_right more unitsPerOne_pos
  unfold limit
  exact scaled

def value (a : Binary64) : ℚ := a.place / unitsPerOne

def factor (negative : Bool) : ℚ := if negative then -1 else 1

theorem factor_bne (s t : Bool) : factor (s != t) = factor s * factor t := by
  cases s <;> cases t <;> simp [factor]

theorem cast_signed (negative : Bool) (u : ℕ) : (signed negative u : ℚ) = factor negative * u := by
  cases negative <;> simp [signed, factor]

theorem factor_mul_natAbs (z : ℤ) : factor (decide (z < 0)) * z.natAbs = z := by
  rw [← cast_signed]
  congr 1
  by_cases below : z < 0
  · rw [decide_eq_true below, signed, if_pos rfl]
    omega
  · rw [decide_eq_false below, signed, if_neg Bool.false_ne_true]
    omega

theorem value_finite (negative : Bool) (u : ℕ) (h : Representable u) :
    value (.finite negative u h) = factor negative * (u / unitsPerOne) := by
  rw [value, place, cast_signed, mul_div_assoc]

theorem value_finite_false (u : ℕ) (h : Representable u) :
    value (.finite false u h) = u / unitsPerOne := by
  rw [value_finite, factor, if_neg Bool.false_ne_true, one_mul]

theorem lt_iff_value (a b : Binary64) : a < b ↔ a ≠ .nan ∧ b ≠ .nan ∧ a.value < b.value := by
  rw [lt_iff, value, value, div_lt_div_iff_of_pos_right unit_pos, Int.cast_lt]

theorem le_iff_value (a b : Binary64) : a ≤ b ↔ a ≠ .nan ∧ b ≠ .nan ∧ a.value ≤ b.value := by
  rw [le_iff, value, value, div_le_div_iff_of_pos_right unit_pos, Int.cast_le]

/-- A finite number that is a given one but for a rounding error. -/
structure Near (a : Binary64) (target : ℚ) : Prop where
  finite : a.isFinite = true
  low : target ≤ a.value + 1 / 1000
  high : a.value ≤ target + 1 / 1000

-- Both bounds are over one unit, whose size does not matter beyond its being large.
theorem near_of_error {target unit u : ℚ} (large : 2 ^ 60 ≤ unit) (moderate : target ≤ 2048)
    (low : u ≤ target * unit + (target * unit / 2 ^ 53 + 1 / 2))
    (high : target * unit ≤ u + (target * unit / 2 ^ 53 + 1 / 2)) :
    u ≤ (target + 1 / 1000) * unit ∧ target ≤ u / unit + 1 / 1000 ∧ u / unit ≤ target + 1 / 1000 := by
  have positive : 0 < unit := by linarith
  have scaled := mul_le_mul_of_nonneg_right moderate positive.le
  have above : u ≤ (target + 1 / 1000) * unit := by linarith
  refine ⟨above, ?_, (div_le_iff₀ positive).mpr above⟩
  rw [div_add' _ _ _ positive.ne', le_div_iff₀ positive]
  linarith

theorem nearest_near (negative : Bool) {num den : ℕ} (positive : 0 < den)
    (moderate : (num : ℚ) / den / unitsPerOne ≤ 2048) :
    Near (nearest negative num den) (factor negative * (num / den / unitsPerOne)) := by
  have large : (2 : ℚ) ^ 60 ≤ unitsPerOne := by exact_mod_cast pow_le_unitsPerOne
  obtain ⟨u, closest, value⟩ := nearest_cases negative num den positive
  have error := closest.error (div_nonneg (Nat.cast_nonneg num) (Nat.cast_nonneg den))
  have size : (num : ℚ) / den = num / den / unitsPerOne * unitsPerOne :=
    (div_mul_cancel₀ _ unit_ne_zero).symm
  generalize (num : ℚ) / den / unitsPerOne = target at *
  rw [size] at error
  obtain ⟨above, low, high⟩ := near_of_error large moderate error.1 error.2
  rcases value with ⟨h, value⟩ | ⟨overflow, _⟩
  · rw [value]
    refine ⟨rfl, ?_, ?_⟩
    all_goals
      rw [value_finite]
      cases negative
      all_goals
        simp only [factor, if_true, Bool.false_eq_true, if_false]
        linarith
  · have bound : (2049 * unitsPerOne : ℚ) < limit := by exact_mod_cast moderate_lt_limit
    have most := mul_le_mul_of_nonneg_right (show target + 1 / 1000 ≤ 2049 by linarith)
      (Nat.cast_nonneg (α := ℚ) unitsPerOne)
    have below := (above.trans most).trans_lt bound
    exact absurd (Nat.cast_lt.mp below) (by omega)

theorem exists_finite {a : Binary64} (finite : a.isFinite = true) :
    ∃ negative u h, a = .finite negative u h := by
  cases a with
  | finite negative u h => exact ⟨negative, u, h, rfl⟩
  | infinite negative => cases finite
  | nan => cases finite

theorem exists_nearest {negative : Bool} {num den : ℕ}
    (finite : (nearest negative num den).isFinite = true) :
    ∃ u h, nearest negative num den = .finite negative u h := by
  rw [nearest_def] at finite ⊢
  by_cases representable : Representable (roundedUnits num den)
  · rw [dif_pos representable]
    exact ⟨_, representable, rfl⟩
  · rw [dif_neg representable] at finite
    cases finite

theorem add_finite (s t : Bool) (u v : ℕ) (hu : Representable u) (hv : Representable v) :
    Binary64.finite s u hu + .finite t v hv =
      if signed s u + signed t v = 0 then zero (s && t)
      else nearest (decide (signed s u + signed t v < 0)) (signed s u + signed t v).natAbs 1 := rfl

theorem add_near {a b : Binary64} (fa : a.isFinite = true) (fb : b.isFinite = true)
    (moderate : |a.value + b.value| ≤ 2048) : Near (a + b) (a.value + b.value) := by
  obtain ⟨s, u, hu, rfl⟩ := exists_finite fa
  obtain ⟨t, v, hv, rfl⟩ := exists_finite fb
  have sum : value (.finite s u hu) + value (.finite t v hv) =
      (signed s u + signed t v : ℤ) / unitsPerOne := by
    rw [value, value, place, place, ← add_div, Int.cast_add]
  rw [sum] at moderate ⊢
  rw [add_finite]
  generalize signed s u + signed t v = total at *
  split
  next cancelled =>
    rw [cancelled, Int.cast_zero, zero_div]
    have nothing : value (zero (s && t)) = 0 := by
      rw [zero, value_finite, Nat.cast_zero, zero_div, mul_zero]
    exact ⟨rfl, by rw [nothing]; norm_num, by rw [nothing]; norm_num⟩
  next =>
    have size : (total.natAbs : ℚ) / (1 : ℕ) / unitsPerOne = |(total : ℚ) / unitsPerOne| := by
      rw [Nat.cast_one, div_one, abs_div, Nat.abs_cast, Nat.cast_natAbs, Int.cast_abs]
    have near := nearest_near (decide (total < 0)) Nat.one_pos (size ▸ moderate)
    rwa [Nat.cast_one, div_one, ← mul_div_assoc, factor_mul_natAbs] at near

theorem value_neg (a : Binary64) : (neg a).value = -a.value := by
  have opposite : (neg a).place = -a.place := by
    cases a with
    | finite negative u h => exact signed_not negative u
    | infinite negative => exact signed_not negative limit
    | nan => rfl
  rw [value, value, opposite, Int.cast_neg, neg_div]

theorem sub_near {a b : Binary64} (fa : a.isFinite = true) (fb : b.isFinite = true)
    (moderate : |a.value - b.value| ≤ 2048) : Near (a - b) (a.value - b.value) := by
  have opposite : (neg b).isFinite = true := by
    obtain ⟨_, _, _, rfl⟩ := exists_finite fb
    rfl
  rw [sub_eq_add_neg, ← value_neg] at moderate ⊢
  exact add_near fa opposite moderate

theorem mul_finite (s t : Bool) (u v : ℕ) (hu : Representable u) (hv : Representable v) :
    Binary64.finite s u hu * .finite t v hv = nearest (s != t) (u * v) unitsPerOne := by
  change mul _ _ = _
  rw [mul]

theorem mul_near {a b : Binary64} (fa : a.isFinite = true) (fb : b.isFinite = true)
    (moderate : |a.value * b.value| ≤ 2048) : Near (a * b) (a.value * b.value) := by
  obtain ⟨s, u, hu, rfl⟩ := exists_finite fa
  obtain ⟨t, v, hv, rfl⟩ := exists_finite fb
  have product : value (.finite s u hu) * value (.finite t v hv) =
      factor (s != t) * ((u * v : ℕ) / unitsPerOne / unitsPerOne) := by
    rw [value_finite, value_finite, factor_bne, Nat.cast_mul]
    ring
  have magnitude : |factor (s != t)| = 1 := by cases s <;> cases t <;> simp [factor]
  rw [product, abs_mul, magnitude, one_mul] at moderate
  rw [product, mul_finite]
  exact nearest_near _ unitsPerOne_pos ((le_abs_self _).trans moderate)

theorem nearest_le (negative : Bool) {num den u : ℕ} (positive : 0 < den)
    (representable : Representable u) (le : num ≤ u * den) :
    ∃ v h, nearest negative num den = .finite negative v h ∧ v ≤ u := by
  obtain ⟨v, closest, value⟩ := nearest_cases negative num den positive
  have ratio : (num : ℚ) / den ≤ u := by
    rw [div_le_iff₀ (Nat.cast_pos.mpr positive)]
    exact_mod_cast le
  have less : v ≤ u := closest.mono (.of_representable representable) ratio
  rcases value with ⟨h, value⟩ | ⟨overflow, _⟩
  · exact ⟨v, h, value, less⟩
  · exact absurd (overflow.trans less) (Nat.not_le.mpr (lt_limit representable))

theorem Closest.lt_pow {x : ℚ} {u m : ℕ} (closest : Closest x u) (below : x + 2 ^ m / 2 < 2 ^ (53 + m)) :
    u < 2 ^ (53 + m) := by
  obtain ⟨e, n, found⟩ := closest
  rcases lt_trichotomy e m with finer | rfl | coarser
  · calc u = n * 2 ^ e := found.units
      _ ≤ 2 ^ 53 * 2 ^ e := Nat.mul_le_mul_right _ found.count_le
      _ = 2 ^ (53 + e) := (pow_add 2 53 e).symm
      _ < 2 ^ (53 + m) := Nat.pow_lt_pow_right (by decide) (by omega)
  · exact_mod_cast found.half_step.1.trans_lt below
  · have above : (2 : ℚ) ^ (52 + e) ≤ x := found.above.resolve_left (by omega)
    have power : (2 : ℚ) ^ (53 + m) ≤ 2 ^ (52 + e) := pow_le_pow_right₀ (by norm_num) (by omega)
    have step : (0 : ℚ) < 2 ^ m := by positivity
    linarith

theorem add_step_le {u m : ℕ} (representable : Representable u)
    (bounded : u < 2 ^ (53 + m)) : u + 2 ^ m ≤ 2 ^ (53 + m) := by
  have whole : 2 ^ (u.log2 - 52) ∣ u := Nat.dvd_of_mod_eq_zero representable.2
  rw [pow_add]
  rcases Nat.lt_or_ge u (2 ^ (52 + m)) with low | top
  · have step : 2 ^ m ≤ 2 ^ (52 + m) := Nat.pow_le_pow_right (by decide) (by omega)
    rw [pow_add] at low step
    omega
  · have positive : u ≠ 0 := by
      have := Nat.two_pow_pos (52 + m)
      omega
    have bits : u.log2 - 52 = m := by
      have least := (Nat.le_log2 positive).mpr top
      have most := (Nat.log2_lt positive).mpr bounded
      omega
    rw [bits] at whole
    obtain ⟨n, rfl⟩ := whole
    rw [pow_add, Nat.mul_comm] at bounded
    have count := Nat.lt_of_mul_lt_mul_right bounded
    calc 2 ^ m * n + 2 ^ m = (n + 1) * 2 ^ m := by ring
      _ ≤ 2 ^ 53 * 2 ^ m := Nat.mul_le_mul_right _ count

theorem add_isFinite {a b : Binary64} (fa : a.isFinite = true) (fb : b.isFinite = true)
    (little : 2 * b.place.natAbs < twoTo 2045) : (a + b).isFinite = true := by
  obtain ⟨s, u, hu, rfl⟩ := exists_finite fa
  obtain ⟨t, v, hv, rfl⟩ := exists_finite fb
  rw [place, natAbs_signed] at little
  have size : (signed s u + signed t v).natAbs ≤ u + v :=
    (Int.natAbs_add_le _ _).trans (by rw [natAbs_signed, natAbs_signed])
  rw [add_finite]
  split
  next => rfl
  next =>
    generalize (signed s u + signed t v).natAbs = total at size
    have bounded := lt_limit hu
    obtain ⟨w, closest, ⟨_, value⟩ | ⟨overflow, _⟩⟩ := nearest_cases
      (decide (signed s u + signed t v < 0)) total 1 Nat.one_pos
    · rw [value]
      rfl
    · rw [limit_eq, show 2098 = 53 + 2045 from rfl] at bounded overflow
      rw [twoTo_eq] at little bounded overflow
      generalize 2045 = m at *
      have room := add_step_le hu bounded
      have below : (total : ℚ) / (1 : ℕ) + 2 ^ m / 2 < 2 ^ (53 + m) := by
        have sum : (2 * total + 2 ^ m : ℚ) < 2 * 2 ^ (53 + m) := by
          exact_mod_cast show 2 * total + 2 ^ m < 2 * 2 ^ (53 + m) by omega
        rw [Nat.cast_one, div_one]
        linarith
      exact absurd (closest.lt_pow below) (by omega)

end Binary64

end DesignTokens
