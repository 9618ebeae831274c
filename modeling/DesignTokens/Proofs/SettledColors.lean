import DesignTokens.Proofs.HueTexts
import DesignTokens.Proofs.LightnessTenths

set_option autoImplicit false

namespace DesignTokens

namespace Oklch

open Binary64

/--
Chromas whose text is written to as many places after it was read: zero, a tenth or more, and what comes
neither to nothing nor to a tenth in four places.
-/
def ChromaKept (c : Binary64) : Prop :=
  c.isZero = true ∨ (0.1 : Binary64) ≤ c ∨ 1 / 20000 < c.value ∧ c.value < 1999 / 20000

theorem fourPlaces_inside_iff (u : ℕ) (h : Representable u) :
    1 ≤ atPlaces 4 u ∧ atPlaces 4 u ≤ 999 ↔
      1 / 20000 < value (.finite false u h) ∧ value (.finite false u h) < 1999 / 20000 := by
  have counted := closestWhole_atPlaces 4 u
  have places : ((tenTo 4 : ℕ) : ℚ) = 10000 := by norm_num [tenTo_eq]
  rw [value_eq_places u h, places] at counted
  generalize value (.finite false u h) = x at *
  constructor
  · rintro ⟨least, most⟩
    constructor
    · by_contra little
      have half : ClosestWhole (1 / 2) 0 := ⟨by norm_num, by norm_num, fun _ => rfl⟩
      have nothing := counted.mono half (by linarith)
      omega
    · by_contra much
      have half : ClosestWhole (1999 / 2) 1000 := ⟨by norm_num, by norm_num, fun _ => rfl⟩
      have all := half.mono counted (by linarith)
      omega
  · rintro ⟨least, most⟩
    have low := counted.low
    have high := counted.high
    constructor
    · by_contra nothing
      obtain nothing : atPlaces 4 u = 0 := by omega
      rw [nothing, Nat.cast_zero] at high
      linarith
    · by_contra all
      have bound : (1000 : ℚ) ≤ atPlaces 4 u := by exact_mod_cast show 1000 ≤ atPlaces 4 u by omega
      linarith

theorem chromaText_of_isZero {c : Binary64} (zero : c.isZero = true) : chromaText c = "0" := by
  rw [chromaText, if_pos zero]

theorem chromaText_below {c : Binary64} (solid : ¬ c.isZero = true) (below : c < 0.1) :
    chromaText c = c.toFixed 4 := by
  rw [chromaText, if_neg solid, if_pos below]

theorem chromaText_above {c : Binary64} (solid : ¬ c.isZero = true) (above : ¬ c < 0.1) :
    chromaText c = c.toFixed 3 := by
  rw [chromaText, if_neg solid, if_neg above]

theorem place_tenth_pos : 0 < (0.1 : Binary64).place := by decide +kernel

theorem places_of_tenth :
    atPlaces 4 (0.1 : Binary64).place.toNat = 1000 ∧ atPlaces 3 (0.1 : Binary64).place.toNat = 100 := by
  decide +kernel

theorem tenth_of_places : ofPlaces 4 1000 = 0.1 ∧ ofPlaces 3 100 = 0.1 := by decide +kernel

theorem lt_tenth_iff (u : ℕ) (h : Representable u) :
    Binary64.finite false u h < 0.1 ↔ u < (0.1 : Binary64).place.toNat := by
  have positive := place_tenth_pos
  have number : (0.1 : Binary64) ≠ .nan := by decide +kernel
  rw [lt_iff]
  simp only [place, signed, number, ne_eq, not_false_eq_true, reduceCtorEq, true_and,
    Bool.false_eq_true, if_false]
  omega

theorem le_tenth_iff (u : ℕ) (h : Representable u) :
    (0.1 : Binary64) ≤ .finite false u h ↔ ¬ Binary64.finite false u h < 0.1 := by
  have number : (0.1 : Binary64) ≠ .nan := by decide +kernel
  constructor
  · intro le less
    exact not_le_of_lt less le
  · exact le_of_not_lt (by simp) number

section

variable {u : ℕ} {h : Representable u}

theorem not_isZero_finite (solid : u ≠ 0) : ¬ (Binary64.finite false u h).isZero = true := by
  simpa [isZero] using solid

theorem chromaKept_below_iff (solid : u ≠ 0) (below : Binary64.finite false u h < 0.1) :
    ChromaKept (.finite false u h) ↔ 1 ≤ atPlaces 4 u ∧ atPlaces 4 u ≤ 999 := by
  rw [ChromaKept, fourPlaces_inside_iff u h, le_tenth_iff]
  simp only [not_isZero_finite solid, below, not_true_eq_false, Bool.false_eq_true, false_or]

theorem toFixed_atPlaces (places : ℕ) :
    toFixed places (.finite false u h) = Digits.toText ⟨atPlaces places u, -places⟩ :=
  toFixed_finite places u h

structure ChromaRead (c x : Binary64) : Prop where
  nonneg : Nonneg x
  kept : ChromaKept x
  same_iff : chromaText x = chromaText c ↔ ChromaKept c

theorem chromaRead_below (solid : u ≠ 0) (below : Binary64.finite false u h < 0.1) :
    ChromaRead (.finite false u h) (ofPlaces 4 (atPlaces 4 u)) := by
  have most : atPlaces 4 u ≤ 1000 := by
    rw [← places_of_tenth.1]
    exact atPlaces_mono 4 ((lt_tenth_iff u h).mp below).le
  have text := chromaText_below (not_isZero_finite solid) below
  have kept := chromaKept_below_iff solid below
  -- Zero and a tenth in four places are written in fewer places when they were read.
  rcases show atPlaces 4 u = 0 ∨ atPlaces 4 u = 1000 ∨ (1 ≤ atPlaces 4 u ∧ atPlaces 4 u ≤ 999) by omega
    with nothing | all | inside
  · rw [toFixed_atPlaces, nothing] at text
    rw [nothing] at kept ⊢
    refine ⟨⟨by decide +kernel, by decide +kernel⟩, .inl (by decide +kernel), ?_⟩
    rw [text, kept]
    decide +kernel
  · rw [toFixed_atPlaces, all] at text
    rw [all] at kept
    rw [all, tenth_of_places.1]
    refine ⟨⟨by decide +kernel, by decide +kernel⟩, .inr (.inl (by decide +kernel)), ?_⟩
    rw [text, kept]
    decide +kernel
  · obtain ⟨w, hw, value, same⟩ := exists_ofPlaces 4 h
    have solid : w ≠ 0 := by
      rintro rfl
      rw [show atPlaces 4 0 = 0 by decide +kernel] at same
      omega
    have below : Binary64.finite false w hw < 0.1 := by
      rw [lt_tenth_iff]
      by_contra above
      have large := atPlaces_mono 4 (not_lt.mp above)
      rw [places_of_tenth.1] at large
      omega
    rw [value]
    refine ⟨⟨rfl, Int.natCast_nonneg w⟩, ?_, ?_⟩
    · rw [chromaKept_below_iff solid below, same]
      exact inside
    · rw [chromaText_below (not_isZero_finite solid) below, text, toFixed_congr hw h same, kept]
      simp [inside]

theorem chromaRead_above (above : ¬ Binary64.finite false u h < 0.1) :
    ChromaRead (.finite false u h) (ofPlaces 3 (atPlaces 3 u)) := by
  have least : (0.1 : Binary64).place.toNat ≤ u := not_lt.mp (mt (lt_tenth_iff u h).mpr above)
  have positive := place_tenth_pos
  have count : 100 ≤ atPlaces 3 u := by
    rw [← places_of_tenth.2]
    exact atPlaces_mono 3 least
  obtain ⟨w, hw, value, same⟩ := exists_ofPlaces 3 h
  have places := place_ofPlaces_mono 3 count
  have placed : (Binary64.finite false w hw).place = w := rfl
  rw [tenth_of_places.2, value, placed] at places
  have aboveW : ¬ Binary64.finite false w hw < 0.1 := by
    rw [lt_tenth_iff]
    omega
  have keptW : ChromaKept (.finite false w hw) := .inr (.inl ((le_tenth_iff w hw).mpr aboveW))
  have kept : ChromaKept (.finite false u h) := .inr (.inl ((le_tenth_iff u h).mpr above))
  rw [value]
  refine ⟨⟨rfl, Int.natCast_nonneg w⟩, keptW, ?_⟩
  rw [chromaText_above (not_isZero_finite (by omega)) aboveW,
    chromaText_above (not_isZero_finite (by omega)) above, toFixed_congr hw h same]
  simp [kept]

end

theorem exists_chromaRead {c : Binary64} (nonneg : Nonneg c) :
    ∃ x, Decimal.unsigned? (chromaText c).toList = some x ∧ ChromaRead c x := by
  by_cases zero : c.isZero = true
  · have text := chromaText_of_isZero zero
    refine ⟨ofDecimal false 0 0, ?_, ⟨by decide +kernel, by decide +kernel⟩, .inl (by decide +kernel), ?_⟩
    · rw [text]
      exact Decimal.unsigned?_toString 0
    · rw [text]
      have kept : ChromaKept c := .inl zero
      simp only [kept, iff_true]
      decide +kernel
  · obtain rfl | ⟨u, h, rfl⟩ := nonneg.cases
    · exact absurd rfl zero
    · by_cases below : Binary64.finite false u h < 0.1
      · refine ⟨_, ?_, chromaRead_below (by simpa [isZero] using zero) below⟩
        rw [chromaText_below zero below]
        exact unsigned?_toFixed_eq (by decide) (by decide) h
      · refine ⟨_, ?_, chromaRead_above below⟩
        rw [chromaText_above zero below]
        exact unsigned?_toFixed_eq (by decide) (by decide) h

theorem exists_lightnessRead_zero (negative : Bool) :
    ∃ x, Decimal.unsigned? (lightnessText (zero negative)).toList = some x ∧
      lightnessText x = lightnessText (zero negative) := by
  refine ⟨ofDecimal false 0 0, ?_, ?_⟩ <;> cases negative <;> decide +kernel

theorem exists_lightnessRead {l : Binary64} (nonneg : Nonneg l) (most : l ≤ 100) :
    ∃ x, Decimal.unsigned? (lightnessText l).toList = some x ∧ lightnessText x = lightnessText l := by
  obtain rfl | ⟨u, h, rfl⟩ := nonneg.cases
  · exact exists_lightnessRead_zero true
  · rcases Nat.eq_zero_or_pos u with rfl | positive
    · exact exists_lightnessRead_zero false
    · have above : 0 < value (.finite false u h) := by
        rw [value_finite_false]
        exact div_pos (Nat.cast_pos.mpr positive) unit_pos
      have bound := ((le_iff_value _ _).mp most).2.2
      rw [show (100 : Binary64) = ofNat 100 from rfl, value_ofNat (by decide), Nat.cast_ofNat] at bound
      obtain ⟨k, rounds⟩ := exists_rounds nonneg.finite above (by linarith)
      refine ⟨tenths k, unsigned?_lightnessText rounds, ?_⟩
      rw [lightnessText_def, lightnessText_def, (rounds_tenths rounds.small).rounded, rounds.rounded]

theorem read_write {color : Oklch} {l c h : Binary64}
    (lightness : Decimal.unsigned? (lightnessText color.lightness).toList = some l)
    (chroma : Decimal.unsigned? (chromaText color.chroma).toList = some c)
    (hue : Decimal.unsigned? (hueText color.hue).toList = some h) :
    read color.write = .ok ⟨l, c, h⟩ := by
  rw [read, read?_write lightness chroma hue]

theorem write_eq_iff {color other : Oklch} (chroma : Nonneg color.chroma) (hue : Nonneg color.hue)
    (lightness : lightnessText color.lightness = lightnessText other.lightness) :
    color.write = other.write ↔
      chromaText color.chroma = chromaText other.chroma ∧ hueText color.hue = hueText other.hue := by
  obtain ⟨_, readC⟩ := exists_chroma chroma
  obtain ⟨_, readH⟩ := exists_hue hue
  have solid {text : List Char} {x : Binary64} (read : Decimal.unsigned? text = some x) : ' ' ∉ text := by
    intro space
    exact absurd ((Decimal.solid_of_unsigned? read).2 ' ' space) (by decide)
  have behind : ' ' ∉ (hueText color.hue).toList ++ ")".toList := by
    simpa using solid readH
  rw [write, write, lightness, ← String.toList_inj, ← String.toList_inj, ← String.toList_inj]
  simp only [String.toList_append, List.append_assoc, List.append_cancel_left_eq]
  rw [show " ".toList = [' '] from rfl, List.singleton_append, List.singleton_append,
    List.append_cons_inj_of_notMem (solid readC) behind]
  simp only [List.append_cancel_right_eq, true_and]

/--
A colour has one text, or a second one that is the last: it keeps the first if its chroma and its hue keep
theirs.
-/
theorem write_read_write_iff (color : Oklch) (lightness : Nonneg color.lightness)
    (most : color.lightness ≤ 100) (chroma : Nonneg color.chroma) (hue : Nonneg color.hue) :
    ∃ again final, read color.write = .ok again ∧
      (again.write = color.write ↔ ChromaKept color.chroma ∧ HueKept color.hue) ∧
      read again.write = .ok final ∧ final.write = again.write := by
  obtain ⟨l, readL, textL⟩ := exists_lightnessRead lightness most
  obtain ⟨c, readC, partC⟩ := exists_chromaRead chroma
  obtain ⟨h, readH, partH⟩ := exists_hueRead hue
  obtain ⟨c', readC', partC'⟩ := exists_chromaRead partC.nonneg
  obtain ⟨h', readH', partH'⟩ := exists_hueRead partH.nonneg
  have readL' : Decimal.unsigned? (lightnessText l).toList = some l := by rw [textL, readL]
  refine ⟨⟨l, c, h⟩, ⟨l, c', h'⟩, read_write readL readC readH, ?_, read_write readL' readC' readH', ?_⟩
  · rw [write_eq_iff partC.nonneg partH.nonneg textL, partC.same_iff, partH.same_iff]
  · apply (write_eq_iff partC'.nonneg partH'.nonneg (Eq.refl (lightnessText l))).mpr
    exact ⟨partC'.same_iff.mpr partC.kept, partH'.same_iff.mpr partH.kept⟩

theorem write_read_write_iff_below_tenth :
    let color : Oklch := ⟨50, 0.09996, 10⟩
    color.write = "oklch(50% 0.1000 10)" ∧ read "oklch(50% 0.1000 10)" = .ok ⟨50, 0.1, 10⟩ ∧
      (⟨50, 0.1, 10⟩ : Oklch).write = "oklch(50% 0.100 10)" ∧
      ¬ (ChromaKept color.chroma ∧ HueKept color.hue) := by
  have first : (⟨50, 0.09996, 10⟩ : Oklch).write = "oklch(50% 0.1000 10)" := by decide +kernel
  have answered : read "oklch(50% 0.1000 10)" = .ok ⟨50, 0.1, 10⟩ := by decide +kernel
  have second : (⟨50, 0.1, 10⟩ : Oklch).write = "oklch(50% 0.100 10)" := by decide +kernel
  refine ⟨first, answered, second, fun kept => ?_⟩
  have lightness : Nonneg 50 := ⟨by decide +kernel, by decide +kernel⟩
  have most : (50 : Binary64) ≤ 100 := by decide +kernel
  have chroma : Nonneg 0.09996 := ⟨by decide +kernel, by decide +kernel⟩
  have hue : Nonneg 10 := ⟨by decide +kernel, by decide +kernel⟩
  obtain ⟨again, _, read, same_iff, _⟩ :=
    write_read_write_iff ⟨50, 0.09996, 10⟩ lightness most chroma hue
  rw [first, answered] at read
  obtain rfl := Except.ok.inj read
  have same := same_iff.mpr kept
  rw [first, second] at same
  exact absurd same (by decide)

end Oklch

end DesignTokens
