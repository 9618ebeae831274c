import DesignTokens.Proofs.ColorTexts

set_option autoImplicit false

namespace DesignTokens

namespace Binary64

theorem ClosestWhole.half {x : ℚ} {n : ℕ} (closest : ClosestWhole x n) : |(n : ℚ) - x| ≤ 1 / 2 := by
  have low := closest.low
  have high := closest.high
  rw [abs_sub_le_iff]
  constructor <;> linarith

theorem ClosestWhole.unique {x : ℚ} {m n : ℕ} (left : ClosestWhole x m) (right : ClosestWhole x n) :
    m = n := Nat.le_antisymm (left.mono right le_rfl) (right.mono left le_rfl)

theorem ClosestWhole.nearer {x : ℚ} {n : ℕ} (closest : ClosestWhole x n) (m : ℕ) :
    |(n : ℚ) - x| ≤ |(m : ℚ) - x| := by
  have half := closest.half
  have low := closest.low
  have high := closest.high
  rcases Nat.lt_trichotomy m n with less | rfl | more
  · have step : (m : ℚ) + 1 ≤ n := by exact_mod_cast less
    have behind := neg_le_abs ((m : ℚ) - x)
    linarith
  · exact le_rfl
  · have step : (n : ℚ) + 1 ≤ m := by exact_mod_cast more
    have ahead := le_abs_self ((m : ℚ) - x)
    linarith

theorem ClosestWhole.of_nearer {x y : ℚ} {n : ℕ} (closest : ClosestWhole x n)
    (nearer : |y - n| ≤ |x - n|) : ClosestWhole y n := by
  have half := closest.half
  rw [abs_sub_comm] at half
  obtain ⟨low, high⟩ := abs_le.mp (nearer.trans half)
  refine ⟨by linarith, by linarith, fun tie => ?_⟩
  have tied : |y - n| = 1 / 2 := by
    rcases tie with tie | tie
    · rw [tie, show y - (y + 1 / 2) = -(1 / 2) by ring, abs_neg]
      norm_num
    · rw [tie, add_sub_cancel_left]
      norm_num
  apply closest.even
  rcases (abs_eq (by norm_num)).mp (le_antisymm half (tied ▸ nearer)) with above | below
  · exact .inr (by linarith)
  · exact .inl (by linarith)

theorem ClosestAt.nearer_multiple {x : ℚ} {u e n : ℕ} (found : ClosestAt x u e n) (m : ℕ) :
    |(u : ℚ) - x| ≤ |(m : ℚ) * 2 ^ e - x| := by
  have step : (0 : ℚ) < 2 ^ e := by positivity
  have scale (k : ℕ) : |(k : ℚ) * 2 ^ e - x| = |(k : ℚ) - x / 2 ^ e| * 2 ^ e := by
    rw [← abs_of_pos step, ← abs_mul, abs_of_pos step, sub_mul, div_mul_cancel₀ x step.ne']
  have units : (u : ℚ) = n * 2 ^ e := by exact_mod_cast found.units
  rw [units, scale, scale]
  exact mul_le_mul_of_nonneg_right (found.closest.nearer m) step.le

-- A number below the binade of the ratio is further from it than the start of the binade.
theorem Closest.nearer {x : ℚ} {u v : ℕ} (closest : Closest x u) (representable : Representable v) :
    |(u : ℚ) - x| ≤ |(v : ℚ) - x| := by
  obtain ⟨e, n, found⟩ := closest
  by_cases inside : e = 0 ∨ 2 ^ (52 + e) ≤ v
  · have divides : 2 ^ e ∣ v := by
      rcases inside with rfl | least
      · exact one_dvd v
      · have bits : e ≤ v.log2 - 52 := by
          have := (Nat.le_log2 (by have := Nat.two_pow_pos (52 + e); omega)).mpr least
          omega
        exact (Nat.pow_dvd_pow 2 bits).trans (Nat.dvd_of_mod_eq_zero representable.2)
    obtain ⟨m, rfl⟩ := divides
    have nearer := found.nearer_multiple m
    rwa [← Nat.cast_ofNat, ← Nat.cast_pow, ← Nat.cast_mul, Nat.mul_comm] at nearer
  · obtain ⟨coarse, under⟩ := not_or.mp inside
    have above : (2 : ℚ) ^ (52 + e) ≤ x := found.above.resolve_left coarse
    have below : (v : ℚ) ≤ 2 ^ (52 + e) := by exact_mod_cast (not_le.mp under).le
    have nearer := found.nearer_multiple (2 ^ 52)
    rw [Nat.cast_pow, Nat.cast_ofNat, ← pow_add] at nearer
    rw [abs_of_nonpos (show (2 : ℚ) ^ (52 + e) - x ≤ 0 by linarith)] at nearer
    rw [abs_of_nonpos (show (v : ℚ) - x ≤ 0 by linarith)]
    linarith

def atPlaces (places units : ℕ) : ℕ := halfEven (units * tenTo places) unitsPerOne

def ofPlaces (places count : ℕ) : Binary64 := nearest false (count * unitsPerOne) (tenTo places)

def placesPerUnit (places : ℕ) : ℚ := tenTo places / unitsPerOne

theorem placesPerUnit_pos (places : ℕ) : 0 < placesPerUnit places :=
  div_pos (Nat.cast_pos.mpr (tenTo_pos places)) unit_pos

theorem closestWhole_atPlaces (places u : ℕ) :
    ClosestWhole (u * placesPerUnit places) (atPlaces places u) := by
  have closest := closestWhole_halfEven (u * tenTo places) unitsPerOne unitsPerOne_pos
  rwa [Nat.cast_mul, mul_div_assoc] at closest

theorem atPlaces_mono (places : ℕ) {u v : ℕ} (le : u ≤ v) : atPlaces places u ≤ atPlaces places v := by
  apply (closestWhole_atPlaces places u).mono (closestWhole_atPlaces places v)
  exact mul_le_mul_of_nonneg_right (Nat.cast_le.mpr le) (placesPerUnit_pos places).le

theorem one_le_unit_places (places : ℕ) : 1 ≤ unitsPerOne * placesPerUnit places := by
  rw [placesPerUnit, mul_div_cancel₀ _ unit_ne_zero]
  exact_mod_cast tenTo_pos places

theorem ratio_ofPlaces (places count : ℕ) :
    ((count * unitsPerOne : ℕ) : ℚ) / (tenTo places : ℕ) = count / placesPerUnit places := by
  rw [placesPerUnit, div_div_eq_mul_div, Nat.cast_mul]

theorem ofPlaces_zeros (places zeros count : ℕ) :
    ofPlaces (places + zeros) (count * tenTo zeros) = ofPlaces places count := by
  apply nearest_congr false (tenTo_pos _) (tenTo_pos _)
  have solid : ((tenTo zeros : ℕ) : ℚ) ≠ 0 := Nat.cast_ne_zero.mpr (tenTo_pos zeros).ne'
  have power : tenTo (places + zeros) = tenTo places * tenTo zeros := Nat.pow_add 10 places zeros
  rw [power, Nat.mul_right_comm, Nat.cast_mul, Nat.cast_mul (tenTo places), mul_div_mul_right _ _ solid]

theorem unitsPerOne_lt_spacing : unitsPerOne < twoTo 2045 := twoTo_lt (show 1074 < 2045 by decide)

theorem lt_limit_of_near {u w : ℕ} (representable : Representable u) (near : w ≤ u + unitsPerOne) :
    w < limit := by
  have bounded := lt_limit representable
  have spacing := unitsPerOne_lt_spacing
  rw [limit_eq, show 2098 = 53 + 2045 from rfl, twoTo_eq] at bounded ⊢
  rw [twoTo_eq] at spacing
  have room := add_step_le representable bounded
  omega

theorem atPlaces_bounds (places u : ℕ) :
    2 * (atPlaces places u * unitsPerOne) ≤ 2 * (u * tenTo places) + unitsPerOne ∧
      2 * (u * tenTo places) ≤ 2 * (atPlaces places u * unitsPerOne) + unitsPerOne := by
  have unit := unit_pos
  have closest := closestWhole_halfEven (u * tenTo places) unitsPerOne unitsPerOne_pos
  have low := closest.low
  have high := closest.high
  rw [div_add' _ _ _ unit.ne', le_div_iff₀ unit] at low
  rw [div_le_iff₀ unit] at high
  rw [← atPlaces] at low high
  generalize u * tenTo places = scaled at *
  constructor
  · have bound : (2 * (atPlaces places u * unitsPerOne) : ℚ) ≤ 2 * scaled + unitsPerOne := by linarith
    exact_mod_cast bound
  · have bound : (2 * scaled : ℚ) ≤ 2 * (atPlaces places u * unitsPerOne) + unitsPerOne := by linarith
    exact_mod_cast bound

theorem exists_ofPlaces (places : ℕ) {u : ℕ} (representable : Representable u) :
    ∃ w h, ofPlaces places (atPlaces places u) = .finite false w h ∧
      atPlaces places w = atPlaces places u := by
  obtain ⟨w, closest, value⟩ := nearest_cases false (atPlaces places u * unitsPerOne) (tenTo places)
    (tenTo_pos places)
  have scale := placesPerUnit_pos places
  have counted := closestWhole_atPlaces places u
  rw [ratio_ofPlaces] at closest
  have nearer := closest.nearer representable
  have distance (v : ℕ) : |(v : ℚ) * placesPerUnit places - atPlaces places u| =
      |(v : ℚ) - atPlaces places u / placesPerUnit places| * placesPerUnit places := by
    rw [← abs_of_pos scale, ← abs_mul, abs_of_pos scale, sub_mul, div_mul_cancel₀ _ scale.ne']
  -- The number that was written is a number too, so the closest one is no further from the count.
  have again : ClosestWhole (w * placesPerUnit places) (atPlaces places u) := by
    apply counted.of_nearer
    rw [distance, distance]
    exact mul_le_mul_of_nonneg_right nearer scale.le
  have same : atPlaces places w = atPlaces places u := (closestWhole_atPlaces places w).unique again
  have near : w ≤ u + unitsPerOne := by
    have above := again.high
    have below := counted.low
    have unit := one_le_unit_places places
    have scaled : (w : ℚ) * placesPerUnit places ≤ (u + unitsPerOne) * placesPerUnit places := by
      linarith
    exact_mod_cast le_of_mul_le_mul_right scaled scale
  rcases value with ⟨h, value⟩ | ⟨overflow, _⟩
  · exact ⟨w, h, value, same⟩
  · exact absurd (lt_limit_of_near representable near) (Nat.not_lt.mpr overflow)

theorem atPlaces_le (places : ℕ) {u : ℕ} (representable : Representable u) :
    atPlaces places u ≤ twoTo 1024 * tenTo places := by
  apply (closestWhole_atPlaces places u).mono (ClosestWhole.of_nat _)
  have bounded : (u : ℚ) ≤ limit := Nat.cast_le.mpr (lt_limit representable).le
  calc (u : ℚ) * placesPerUnit places
    _ ≤ limit * placesPerUnit places := mul_le_mul_of_nonneg_right bounded (placesPerUnit_pos places).le
    _ = (twoTo 1024 * tenTo places : ℕ) := by
      unfold limit
      rw [placesPerUnit, Nat.cast_mul, Nat.cast_mul, mul_assoc, mul_div_cancel₀ _ unit_ne_zero]

theorem tenTo_le_twoTo (places : ℕ) : tenTo places ≤ twoTo (4 * places) := by
  rw [tenTo_eq, twoTo_eq, pow_mul]
  exact Nat.pow_le_pow_left (by decide) places

theorem ofDecimal_eq_ofPlaces {places count : ℕ} (few : places ≤ 8)
    (bounded : count ≤ twoTo 1024 * tenTo places) :
    ofDecimal false count (-places) = ofPlaces places count := by
  apply ofDecimal_within (few.trans (by decide))
  rcases Nat.eq_zero_or_pos count with rfl | positive
  · simp
  · have top : count < twoTo (1024 + 4 * places + 1) :=
      calc count ≤ twoTo 1024 * tenTo places := bounded
        _ ≤ twoTo 1024 * twoTo (4 * places) := Nat.mul_le_mul_left _ (tenTo_le_twoTo places)
        _ = twoTo (1024 + 4 * places) := (twoTo_add _ _).symm
        _ < twoTo (1024 + 4 * places + 1) := twoTo_lt (Nat.lt_succ_self _)
    have bits := log2_lt_of_lt_twoTo positive top
    omega

theorem unsigned?_toFixed_eq {places u : ℕ} (positive : 0 < places) (few : places ≤ 8)
    (h : Representable u) :
    Decimal.unsigned? (toFixed places (.finite false u h)).toList =
      some (ofPlaces places (atPlaces places u)) := by
  rw [unsigned?_toFixed positive]
  exact congrArg some (ofDecimal_eq_ofPlaces few (atPlaces_le places h))

theorem toFixed_congr {places u v : ℕ} (hu : Representable u) (hv : Representable v)
    (same : atPlaces places u = atPlaces places v) :
    toFixed places (.finite false u hu) = toFixed places (.finite false v hv) := by
  unfold atPlaces at same
  rw [toFixed_finite, toFixed_finite, same]

theorem place_nearest (num : ℕ) {den : ℕ} (positive : 0 < den) :
    (nearest false num den).place = (min (roundedUnits num den) limit : ℕ) := by
  obtain ⟨u, closest, value⟩ := nearest_cases false num den positive
  obtain rfl := closest.unique (closest_roundedUnits num den positive)
  rcases value with ⟨h, value⟩ | ⟨overflow, value⟩
  · rw [value, min_eq_left (lt_limit h).le]
    rfl
  · rw [value, min_eq_right overflow]
    rfl

theorem place_ofPlaces_mono (places : ℕ) {m n : ℕ} (le : m ≤ n) :
    (ofPlaces places m).place ≤ (ofPlaces places n).place := by
  have positive := tenTo_pos places
  rw [ofPlaces, ofPlaces, place_nearest _ positive, place_nearest _ positive, Nat.cast_le]
  apply min_le_min_right
  apply (closest_roundedUnits _ _ positive).mono (closest_roundedUnits _ _ positive)
  gcongr

theorem value_eq_places (u : ℕ) (h : Representable u) (places : ℕ) :
    (u : ℚ) * placesPerUnit places = value (.finite false u h) * tenTo places := by
  rw [value_finite_false, placesPerUnit, mul_div_assoc', div_mul_eq_mul_div]

end Binary64

end DesignTokens
