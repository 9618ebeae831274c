import DesignTokens.Proofs.ColorGrammar
import DesignTokens.Proofs.NumberErrors

set_option autoImplicit false

namespace DesignTokens

namespace Binary64

structure Nonneg (a : Binary64) : Prop where
  finite : a.isFinite = true
  place_nonneg : 0 ≤ a.place

theorem Nonneg.cases {a : Binary64} (nonneg : Nonneg a) :
    a = zero true ∨ ∃ u h, a = .finite false u h := by
  obtain ⟨finite, place_nonneg⟩ := nonneg
  obtain ⟨negative, u, h, rfl⟩ := exists_finite finite
  cases negative with
  | false => exact .inr ⟨u, h, rfl⟩
  | true =>
    obtain rfl : u = 0 := by
      simp only [place, signed, if_true] at place_nonneg
      omega
    exact .inl rfl

theorem zero_nonneg : Nonneg 0 := ⟨by decide +kernel, by decide +kernel⟩

theorem nonneg_of_not_lt {a : Binary64} (finite : a.isFinite = true) (ahead : ¬ a < 0) : Nonneg a := by
  refine ⟨finite, ?_⟩
  by_contra below
  refine ahead ((lt_iff _ _).mpr ⟨ne_nan_of_isFinite finite, by decide +kernel, ?_⟩)
  rw [place_zero]
  omega

theorem add_nonneg_of_le {w v : ℕ} (hw : Representable w) (hv : Representable v) (le : w ≤ v) :
    Nonneg (.finite true w hw + .finite false v hv) := by
  have forward : ¬ signed true w + signed false v < 0 := by
    simp only [signed, if_true, Bool.false_eq_true, if_false]
    omega
  have size : (signed true w + signed false v).natAbs ≤ v * 1 := by
    simp only [signed, if_true, Bool.false_eq_true, if_false]
    omega
  rw [add_finite, decide_eq_false forward]
  split
  · exact ⟨rfl, le_rfl⟩
  · obtain ⟨total, h, value, _⟩ := nearest_le false Nat.one_pos hv size
    rw [value]
    exact ⟨rfl, Int.natCast_nonneg total⟩

theorem Nonneg.mul {a : Binary64} (nonneg : Nonneg a) (factor : Binary64)
    (finite : factor.isFinite = true) (positive : 0 < factor) (small : factor.place ≤ unitsPerOne) : Nonneg (a * factor) := by
  obtain ⟨v, hv, rfl, _⟩ := exists_units finite positive
  obtain ⟨finite, place_nonneg⟩ := nonneg
  obtain ⟨negative, u, hu, rfl⟩ := exists_finite finite
  obtain ⟨w, hw, value, le⟩ := nearest_le negative unitsPerOne_pos hu
    (Nat.mul_le_mul_left u (Int.ofNat_le.mp small))
  rw [mul_finite, Bool.bne_false, value]
  refine ⟨rfl, ?_⟩
  cases negative with
  | false => exact Int.natCast_nonneg w
  | true =>
    simp only [place, signed, if_true] at place_nonneg ⊢
    omega

theorem toInt64_nonneg {a : Binary64} (place_nonneg : 0 ≤ a.place) : 0 ≤ a.toInt64 := by
  have top : (0 : ℤ) ≤ twoTo 63 - 1 := by decide
  have positive := limit_pos
  cases a with
  | finite negative u h =>
    have whole : 0 ≤ signed negative (u / unitsPerOne) := by
      cases negative with
      | false => exact Int.natCast_nonneg _
      | true =>
        obtain rfl : u = 0 := by
          simp only [place, signed, if_true] at place_nonneg
          omega
        simp [signed]
    exact (le_min top whole).trans (le_max_right _ _)
  | infinite negative =>
    cases negative with
    | false => exact top
    | true =>
      simp only [place, signed, if_true] at place_nonneg
      omega
  | nan => exact le_rfl

theorem toFixed_finite (places u : ℕ) (h : Representable u) :
    toFixed places (.finite false u h) =
      Digits.toText ⟨halfEven (u * tenTo places) unitsPerOne, -places⟩ := by
  simp [toFixed]

theorem unsigned?_toFixed {places : ℕ} (positive : 0 < places) (u : ℕ) (h : Representable u) :
    Decimal.unsigned? (toFixed places (.finite false u h)).toList =
      some (ofDecimal false (halfEven (u * tenTo places) unitsPerOne) (-places)) := by
  rw [toFixed_finite]
  generalize halfEven (u * tenTo places) unitsPerOne = digits
  exact Decimal.unsigned?_toText ⟨digits, -places⟩ (by simpa using positive)

theorem ofDecimal_def (negative : Bool) (digits : ℕ) (exponent : ℤ) :
    ofDecimal negative digits exponent =
      if digits = 0 ∨ (digits.log2 * 30103 / 100000 : ℤ) + exponent < -330 then zero negative
      else if 310 < (digits.log2 * 30103 / 100000 : ℤ) + exponent then .infinite negative
      else if exponent < 0 then nearest negative (digits * unitsPerOne) (tenTo exponent.natAbs)
      else nearest negative (digits * tenTo exponent.natAbs * unitsPerOne) 1 := rfl

theorem ofDecimal_within {digits places : ℕ} (few : places ≤ 330)
    (bounded : (digits.log2 * 30103 / 100000 : ℤ) - places ≤ 310) :
    ofDecimal false digits (-places) = nearest false (digits * unitsPerOne) (tenTo places) := by
  rw [ofDecimal_def]
  rcases Nat.eq_zero_or_pos digits with rfl | positive
  · rw [if_pos (.inl rfl)]
    exact (nearest_of_representable false (tenTo_pos places) representable_zero (by simp)).symm
  · rw [if_neg (by omega), if_neg (by omega)]
    split
    next => rw [Int.natAbs_neg, Int.natAbs_natCast]
    next whole =>
      obtain rfl : places = 0 := by omega
      rw [Nat.cast_zero, neg_zero, Int.natAbs_zero, show tenTo 0 = 1 from rfl, Nat.mul_one]

theorem ofDecimal_moderate {digits : ℕ} (places : ℕ) (short : digits < twoTo 63) (few : places ≤ 20) :
    ofDecimal false digits (-places) = nearest false (digits * unitsPerOne) (tenTo places) := by
  apply ofDecimal_within (few.trans (by decide))
  rcases Nat.eq_zero_or_pos digits with rfl | positive
  · simp
  · have bits := log2_lt_of_lt_twoTo positive short
    omega

theorem place_ofDecimal_nonneg (digits : ℕ) (exponent : ℤ) :
    0 ≤ (ofDecimal false digits exponent).place := by
  rw [ofDecimal_def]
  split
  · exact le_rfl
  · split
    · exact Int.natCast_nonneg _
    · split
      · exact place_nearest_nonneg _ _ (tenTo_pos _)
      · exact place_nearest_nonneg _ _ Nat.one_pos

theorem nonneg_of_unsigned? {text : List Char} {x : Binary64}
    (read : Decimal.unsigned? text = some x) (finite : x.isFinite = true) : Nonneg x := by
  obtain ⟨m, _, _, rfl⟩ := (Decimal.unsigned?_eq_some_iff text x).mp read
  exact ⟨finite, place_ofDecimal_nonneg _ _⟩

end Binary64

namespace Oklch

open Text Binary64

theorem exists_fields {text : String} {color : Oklch} (readable : Oklch.read text = .ok color) :
    ∃ l c h, lightness? l = some color.lightness ∧ Decimal.unsigned? c = some color.chroma ∧
      Decimal.unsigned? h = some color.hue := by
  unfold Oklch.read at readable
  split at readable
  next found read =>
    obtain rfl := Except.ok.inj readable
    simp only [read?, Option.bind_eq_bind, Option.bind_eq_some_iff] at read
    obtain ⟨_, _, _, _, fields⟩ := read
    split at fields
    next l c h _ =>
      simp only [Option.bind_eq_some_iff, Option.some.injEq] at fields
      obtain ⟨_, lightness, _, chroma, _, hue, rfl⟩ := fields
      exact ⟨l, c, h, lightness, chroma, hue⟩
    next => cases fields
  next => cases readable

-- The remainder lies within one turn of zero, so one turn up is enough.
theorem wrapHue_nonneg {h : Binary64} (finite : h.isFinite = true) : Nonneg (wrapHue h) := by
  obtain ⟨turn, representable, full, solid⟩ : ∃ v r, (360 : Binary64) = .finite false v r ∧ v ≠ 0 :=
    exists_units (by decide +kernel) (by decide +kernel)
  obtain ⟨negative, u, hu, rfl⟩ := exists_finite finite
  obtain ⟨w, hw, value, le⟩ := nearest_le negative Nat.one_pos representable
    (show u % turn ≤ turn * 1 by rw [Nat.mul_one]; exact (Nat.mod_lt u (Nat.pos_of_ne_zero solid)).le)
  have remainder : Binary64.remainder (.finite negative u hu) (.finite false turn representable) =
      .finite negative w hw := by
    rw [Binary64.remainder, if_neg solid, value]
  have wrapped : Nonneg (remainderUp (.finite negative u hu) 360) := by
    rw [full]
    simp only [remainderUp, remainder]
    split
    next behind =>
      have below := ((lt_iff _ _).mp behind).2.2
      rw [place_zero] at below
      cases negative with
      | false => exact absurd below (Int.natCast_nonneg w).not_gt
      | true => exact add_nonneg_of_le hw representable le
    next ahead => exact nonneg_of_not_lt rfl ahead
  simp only [wrapHue]
  split
  · exact zero_nonneg
  · exact wrapped

theorem exists_chroma {c : Binary64} (nonneg : Nonneg c) :
    ∃ x, Decimal.unsigned? (chromaText c).toList = some x := by
  obtain rfl | ⟨u, h, rfl⟩ := nonneg.cases
  · exact ⟨_, Decimal.unsigned?_toString 0⟩
  · unfold chromaText
    split
    · exact ⟨_, Decimal.unsigned?_toString 0⟩
    · exact ⟨_, unsigned?_toFixed (by split <;> decide) u h⟩

theorem exists_hue {h : Binary64} (nonneg : Nonneg h) :
    ∃ x, Decimal.unsigned? (hueText h).toList = some x := by
  have number : h ≠ .nan := by
    rintro rfl
    cases nonneg.finite
  have whole := toInt64_nonneg (scaling_round.nonneg number nonneg.place_nonneg)
  unfold hueText
  split
  next =>
    rw [← Int.toNat_of_nonneg whole]
    exact ⟨_, Decimal.unsigned?_toString _⟩
  next apart =>
    obtain rfl | ⟨u, representable, rfl⟩ := nonneg.cases
    · exact absurd (by decide +kernel) apart
    · obtain ⟨first, places, text, written, digits, _⟩ := Digits.toText_point
        ⟨halfEven (u * tenTo 3) unitsPerOne, -(3 : ℕ)⟩ (Int.negSucc_lt_zero 2)
      rw [toFixed_finite]
      obtain ⟨_, _, _, read⟩ := Decimal.exists_unsigned?_dropTrailingZeros text digits written
      exact ⟨_, read⟩

theorem read?_write {color : Oklch} {l c h : Binary64}
    (lightness : Decimal.unsigned? (lightnessText color.lightness).toList = some l)
    (chroma : Decimal.unsigned? (chromaText color.chroma).toList = some c)
    (hue : Decimal.unsigned? (hueText color.hue).toList = some h) :
    read? color.write = some ⟨l, c, h⟩ := by
  have text : color.write.toList = "oklch(".toList ++
      (((lightnessText color.lightness).toList ++ ['%']) ++ ([' '] ++ ((chromaText color.chroma).toList ++
        ([' '] ++ ((hueText color.hue).toList ++ [])))) ++ [')']) := by
    simp [write]
  have solid : trim color.write.toList = color.write.toList := by
    rw [text]
    refine trim_eq_self _ (fun c first => ?_) (fun c last => ?_)
    · obtain rfl : 'o' = c := by simpa using first
      decide
    · rw [← List.append_assoc, List.getLast?_concat] at last
      obtain rfl : ')' = c := by simpa using last
      decide
  have blank : Blanks [' '] := by
    simp only [Blanks, List.forall_mem_singleton]
    decide
  have nothing : Blanks [] := by simp [Blanks]
  refine (read?_eq_some_iff _ _).mpr ⟨_, _, _, _, solid.trans text,
    ⟨[], [' '], [' '], [], nothing, blank, by simp, blank, by simp, nothing, rfl⟩, ?_, chroma, hue⟩
  rw [lightness?, before?_append]
  exact lightness

end Oklch

end DesignTokens
