import DesignTokens.Proofs.DecimalPlaces
import DesignTokens.Proofs.LightnessTenths

set_option autoImplicit false

namespace DesignTokens

namespace Binary64

theorem le_nearest {u num : ℕ} (h : Representable u) (le : u ≤ num) :
    .finite false u h ≤ nearest false num 1 := by
  have bounded := lt_limit h
  have closest := closest_roundedUnits num 1 Nat.one_pos
  have rounded : u ≤ roundedUnits num 1 := by
    apply (Closest.of_representable h).mono closest
    rw [Nat.cast_one, div_one]
    exact Nat.cast_le.mpr le
  refine (le_iff _ _).mpr ⟨by simp, nearest_ne_nan _ _ _, ?_⟩
  rw [place_nearest _ Nat.one_pos]
  exact Int.ofNat_le.mpr (le_min rounded bounded.le)

end Binary64

namespace Oklch

open Binary64

def NearWhole (h : Binary64) : Prop := (h - h.round).abs < 0.001

instance (h : Binary64) : Decidable (NearWhole h) :=
  inferInstanceAs (Decidable ((h - h.round).abs < 0.001))

def apart (u : ℕ) : ℕ := ((u : ℤ) - (wholes u * unitsPerOne : ℕ)).natAbs

theorem nearWhole_iff (u : ℕ) (h : Representable u) :
    NearWhole (.finite false u h) ↔ nearest false (apart u) 1 < 0.001 := by
  rw [NearWhole, round_finite false h, abs_sub, apart]

theorem around_thousandth :
    unitsPerOne ≤ 2000 * (0.0006 : Binary64).place ∧ (0.0006 : Binary64) < 0.001 ∧
      (0.001 : Binary64) < 0.0011 ∧ 10000 * (0.0011 : Binary64).place < 12 * unitsPerOne := by
  decide +kernel

section

variable {u : ℕ} {h : Representable u}

theorem nearWhole_of_near (near : 2000 * apart u ≤ unitsPerOne) : NearWhole (.finite false u h) := by
  obtain ⟨large, less, _, _⟩ := around_thousandth
  obtain ⟨v, hv, bound, _⟩ :=
    exists_units (show (0.0006 : Binary64).isFinite = true by decide +kernel) (by decide +kernel)
  rw [bound] at large less
  have placed : (Binary64.finite false v hv).place = v := rfl
  obtain ⟨w, hw, value, le⟩ := nearest_le false Nat.one_pos hv (show apart u ≤ v * 1 by omega)
  rw [nearWhole_iff, value]
  rw [lt_iff] at less ⊢
  have order : (Binary64.finite false w hw).place ≤ v := Int.ofNat_le.mpr le
  exact ⟨by simp, less.2.1, order.trans_lt less.2.2⟩

theorem near_of_nearWhole (near : NearWhole (.finite false u h)) :
    10000 * apart u < 12 * unitsPerOne := by
  obtain ⟨_, _, more, small⟩ := around_thousandth
  obtain ⟨v, hv, bound, _⟩ :=
    exists_units (show (0.0011 : Binary64).isFinite = true by decide +kernel) (by decide +kernel)
  rw [bound] at more small
  have placed : (Binary64.finite false v hv).place = v := rfl
  by_contra far
  have least : .finite false v hv ≤ nearest false (apart u) 1 := le_nearest hv (by omega)
  exact not_le_of_lt (lt_trans ((nearWhole_iff u h).mp near) more) least

theorem nearWhole_of_thousandths (whole : atPlaces 3 u % 1000 = 0) : NearWhole (.finite false u h) := by
  obtain ⟨low, high⟩ := atPlaces_bounds 3 u
  have positive := unitsPerOne_pos
  have parts : atPlaces 3 u * unitsPerOne = 1000 * (atPlaces 3 u / 1000 * unitsPerOne) := by
    rw [← Nat.mul_assoc, Nat.mul_div_cancel' (Nat.dvd_of_mod_eq_zero whole)]
  rw [show tenTo 3 = 1000 from rfl, parts] at low high
  have count : wholes u = atPlaces 3 u / 1000 := wholes_eq (by omega) (by omega)
  apply nearWhole_of_near
  rw [apart, count]
  omega

theorem thousandths_of_nearWhole (near : NearWhole (.finite false u h)) :
    atPlaces 3 u % 1000 ∈ [999, 0, 1] := by
  obtain ⟨low, high⟩ := atPlaces_bounds 3 u
  have close := near_of_nearWhole near
  rw [apart] at close
  rw [show tenTo 3 = 1000 from rfl] at low high
  have above : atPlaces 3 u * unitsPerOne < (1000 * wholes u + 2) * unitsPerOne := by
    rw [Nat.add_mul, Nat.mul_assoc]
    omega
  have below : 1000 * wholes u * unitsPerOne < (atPlaces 3 u + 2) * unitsPerOne := by
    rw [Nat.add_mul, Nat.mul_assoc]
    omega
  have most := Nat.lt_of_mul_lt_mul_right above
  have least := Nat.lt_of_mul_lt_mul_right below
  simp only [List.mem_cons, List.not_mem_nil, or_false]
  omega

theorem hueText_whole {x : Binary64} (near : NearWhole x) : hueText x = toString x.round.toInt64 :=
  if_pos near

theorem hueText_places {x : Binary64} (far : ¬ NearWhole x) :
    hueText x = dropTrailingZeros (x.toFixed 3) := if_neg far

theorem not_mem_toString (n : ℕ) : '.' ∉ (toString (n : ℤ)).toList := by
  rw [Decimal.toList_toString]
  intro point
  exact absurd (Decimal.areDigits_toDigits n _ point) (by decide)

theorem toInt64_round (h : Representable u) :
    toInt64 (.round (.finite false u h)) = (min (twoTo 63 - 1) (wholes u) : ℕ) := by
  rw [round_finite, toInt64_multiple, Nat.cast_min]
  rfl

theorem nearWhole_multiple {k : ℕ} (h : Representable (k * unitsPerOne)) :
    NearWhole (.finite false (k * unitsPerOne) h) := by
  apply nearWhole_of_near
  rw [apart, wholes_multiple, sub_self, Int.natAbs_zero, Nat.mul_zero]
  exact Nat.zero_le _

theorem exists_wholeRead {k : ℕ} (representable : Representable (k * unitsPerOne)) :
    ∃ x, Decimal.unsigned? (toString ((min (twoTo 63 - 1) k : ℕ) : ℤ)).toList = some x ∧ Nonneg x ∧
      NearWhole x ∧ hueText x = toString ((min (twoTo 63 - 1) k : ℕ) : ℤ) := by
  refine ⟨_, Decimal.unsigned?_toString _, ?_⟩
  rcases Nat.lt_or_ge k (twoTo 63) with small | large
  · have read : ofDecimal false k 0 = .finite false (k * unitsPerOne) representable := by
      refine (ofDecimal_moderate 0 small (by decide)).trans ?_
      exact nearest_of_representable false Nat.one_pos representable (by rw [Nat.cast_one, div_one])
    have near := nearWhole_multiple representable
    rw [min_eq_right (Nat.le_sub_one_of_lt small), read]
    refine ⟨⟨rfl, Int.natCast_nonneg _⟩, near, ?_⟩
    rw [hueText_whole near, toInt64_round, wholes_multiple, min_eq_right (Nat.le_sub_one_of_lt small)]
  · rw [min_eq_left ((Nat.sub_le _ 1).trans large)]
    refine ⟨⟨?_, ?_⟩, ?_, ?_⟩ <;> decide +kernel

theorem places_of_far (far : ¬ NearWhole (.finite false u h)) :
    '.' ∈ (hueText (.finite false u h)).toList ∧
      Decimal.unsigned? (hueText (.finite false u h)).toList = some (ofPlaces 3 (atPlaces 3 u)) := by
  obtain ⟨whole, places, text, written, digits, length, amount⟩ :=
    Digits.toText_places (atPlaces 3 u) (show 0 < 3 by decide)
  obtain ⟨kept, zeros, rfl, trimmed⟩ := Decimal.toList_dropTrailingZeros text digits written
  rw [← List.append_assoc, Decimal.value_append_zeros, ← tenTo_eq] at amount
  rw [List.length_append, List.length_replicate] at length
  have left : Decimal.AreDigits (whole ++ kept) := fun c member =>
    digits c (by rw [← List.append_assoc]; exact List.mem_append_left _ member)
  have thousandths : atPlaces 3 u % 1000 ≠ 0 := mt nearWhole_of_thousandths far
  have solid : kept ≠ [] := by
    rintro rfl
    obtain rfl : zeros = 3 := by simpa using length
    rw [← amount] at thousandths
    exact thousandths (Nat.mul_mod_left _ 1000)
  have bounded : Decimal.value (whole ++ kept) ≤ twoTo 1024 * tenTo kept.length := by
    have most := atPlaces_le 3 h
    rw [← amount, ← length, tenTo_eq (_ + _), pow_add, ← tenTo_eq, ← tenTo_eq, ← Nat.mul_assoc] at most
    exact Nat.le_of_mul_le_mul_right most (tenTo_pos zeros)
  rw [hueText_places far, toFixed_finite, ← atPlaces, trimmed, if_neg solid]
  refine ⟨by simp, ?_⟩
  rw [Decimal.unsigned?_point left written, ofDecimal_eq_ofPlaces (by omega) bounded, ← amount, ← length,
    ofPlaces_zeros]

def thousandth (h : Binary64) : Binary64 := ofPlaces 3 (atPlaces 3 h.place.natAbs)

theorem thousandth_finite : thousandth (.finite false u h) = ofPlaces 3 (atPlaces 3 u) := rfl

/--
Hues that are written whole before and after they were read, or neither time. The others are so close to a
whole number in three places that their point goes the second time.
-/
def HueKept (h : Binary64) : Prop := NearWhole h ∨ ¬ NearWhole (thousandth h)

structure HueRead (h x : Binary64) : Prop where
  nonneg : Nonneg x
  kept : HueKept x
  same_iff : hueText x = hueText h ↔ HueKept h

theorem exists_hueRead_near (near : NearWhole (.finite false u h)) :
    ∃ x, Decimal.unsigned? (hueText (.finite false u h)).toList = some x ∧
      HueRead (.finite false u h) x := by
  obtain ⟨x, read, nonneg, nearX, text⟩ := exists_wholeRead (representable_wholes h)
  rw [← toInt64_round h, ← hueText_whole near] at read text
  refine ⟨x, read, nonneg, .inl nearX, ?_⟩
  rw [text]
  exact iff_of_true rfl (.inl near)

theorem hueRead_far (far : ¬ NearWhole (.finite false u h)) :
    HueRead (.finite false u h) (ofPlaces 3 (atPlaces 3 u)) := by
  obtain ⟨w, hw, value, same⟩ := exists_ofPlaces 3 h
  have first : thousandth (.finite false u h) = .finite false w hw := by
    rw [thousandth_finite, value]
  have second : thousandth (.finite false w hw) = .finite false w hw := by
    rw [thousandth_finite, same, value]
  rw [value]
  -- The hue has a point. The number that was read has none if it is close to a whole number.
  by_cases near : NearWhole (.finite false w hw)
  · refine ⟨⟨rfl, Int.natCast_nonneg w⟩, .inl near, ?_⟩
    apply iff_of_false
    · intro text
      have point := (places_of_far far).1
      rw [← text, hueText_whole near, toInt64_round] at point
      exact not_mem_toString _ point
    · rw [HueKept, first]
      exact not_or.mpr ⟨far, not_not.mpr near⟩
  · refine ⟨⟨rfl, Int.natCast_nonneg w⟩, .inr (by rwa [second]), ?_⟩
    apply iff_of_true
    · rw [hueText_places near, hueText_places far, toFixed_congr hw h same]
    · exact .inr (by rwa [first])

end

theorem exists_hueRead {h : Binary64} (nonneg : Nonneg h) :
    ∃ x, Decimal.unsigned? (hueText h).toList = some x ∧ HueRead h x := by
  obtain rfl | ⟨u, representable, rfl⟩ := nonneg.cases
  · refine ⟨ofDecimal false 0 0, ?_, ⟨?_, ?_⟩, .inl ?_, iff_of_true ?_ (.inl ?_)⟩ <;> decide +kernel
  · by_cases near : NearWhole (.finite false u representable)
    · exact exists_hueRead_near near
    · exact ⟨_, (places_of_far near).2, hueRead_far near⟩

theorem thousandths_of_not_hueKept {h : Binary64} (nonneg : Nonneg h) (lost : ¬ HueKept h) :
    atPlaces 3 h.place.natAbs % 1000 = 1 ∨ atPlaces 3 h.place.natAbs % 1000 = 999 := by
  obtain ⟨far, near⟩ := not_or.mp lost
  obtain rfl | ⟨u, representable, rfl⟩ := nonneg.cases
  · exact absurd (by decide +kernel) far
  · obtain ⟨w, hw, value, same⟩ := exists_ofPlaces 3 representable
    have first : thousandth (.finite false u representable) = .finite false w hw := by
      rw [thousandth_finite, value]
    rw [first, not_not] at near
    have close := thousandths_of_nearWhole near
    have apart := mt nearWhole_of_thousandths far
    have placed : (Binary64.finite false u representable).place.natAbs = u := rfl
    rw [same] at close
    rw [placed]
    simp only [List.mem_cons, List.not_mem_nil, or_false] at close
    omega

example : hueText 1.0012 = "1.001" ∧ hueText 1.001 = "1" := by decide +kernel

end Oklch

end DesignTokens
