import DesignTokens.Proofs.ScaleValues
import DesignTokens.Proofs.ValueGrammar
import DesignTokens.Proofs.WholeNumbers

set_option autoImplicit false

namespace DesignTokens

namespace Binary64

theorem isFinite_finite (negative : Bool) (u : ℕ) (h : Representable u) :
    (Binary64.finite negative u h).isFinite = true := rfl

theorem abs_finite (negative : Bool) (u : ℕ) (h : Representable u) :
    (Binary64.finite negative u h).abs = .finite false u h := rfl

theorem isFinite_abs (x : Binary64) : x.abs.isFinite = x.isFinite := by cases x <;> rfl

theorem isFinite_nearest (negative : Bool) (num den : ℕ) :
    (nearest negative num den).isFinite = (nearest false num den).isFinite := by
  rw [← isFinite_abs, abs_nearest]

theorem le_of_lt {a b : Binary64} (less : a < b) : a ≤ b := by
  obtain ⟨ha, hb, places⟩ := (lt_iff a b).mp less
  exact (le_iff a b).mpr ⟨ha, hb, places.le⟩

theorem isFinite_of_between {a b x : Binary64} (fa : a.isFinite = true) (fb : b.isFinite = true)
    (low : a ≤ x) (high : x ≤ b) : x.isFinite = true := by
  obtain ⟨_, number, least⟩ := (le_iff a x).mp low
  have most := ((le_iff x b).mp high).2.2
  obtain ⟨s, u, hu, rfl⟩ := exists_finite fa
  obtain ⟨t, v, hv, rfl⟩ := exists_finite fb
  have belowU := lt_limit hu
  have belowV := lt_limit hv
  cases x with
  | finite => rfl
  | infinite negative =>
    cases s <;> cases t <;> cases negative <;>
      simp only [place, signed, if_true, Bool.false_eq_true, if_false] at least most <;> omega
  | nan => exact absurd rfl number

theorem isFinite_round (x : Binary64) : x.round.isFinite = x.isFinite := by
  cases x with
  | finite negative u h =>
    rw [round_finite, isFinite_finite, isFinite_finite]
  | infinite negative => rfl
  | nan => rfl

-- Nothing gets infinite by a division that does not enlarge it, and what is infinite stays so.
theorem isFinite_div {v : ℕ} (h : Representable v) (large : unitsPerOne ≤ v) (x : Binary64) :
    (x / .finite false v h).isFinite = x.isFinite := by
  have solid : v ≠ 0 := (unitsPerOne_pos.trans_le large).ne'
  cases x with
  | finite negative u hu =>
    obtain ⟨w, hw, value, _⟩ := nearest_le negative (Nat.pos_of_ne_zero solid) hu
      (Nat.mul_le_mul_left u large)
    have quotient := (scaling_div v h solid).finite negative u hu
    rw [value] at quotient
    rw [quotient, isFinite_finite, isFinite_finite]
  | infinite negative =>
    have quotient := (scaling_div v h solid).infinite negative
    rw [quotient]
  | nan => rfl

-- The next number after one of 53 bits is a step of its last bit above it.
theorem add_step_le_of_lt {u v m : ℕ} (representable : Representable u) (least : twoTo (m + 52) ≤ v)
    (whole : twoTo m ∣ v) (less : v < u) : v + twoTo m ≤ u := by
  have bits := Nat.le_sub_of_add_le (le_log2_of_twoTo_le (least.trans less.le))
  have divides := (twoTo_dvd bits).trans (Nat.dvd_of_mod_eq_zero representable.2)
  exact Nat.le_of_lt_add_of_dvd (by omega) (Nat.dvd_add whole (Nat.dvd_refl _)) divides

end Binary64

namespace StepRange

open Binary64

/-- The numbers that can be rounded to ten places: ten billion times the next one is infinite. -/
def InReach (x : Binary64) : Prop := x.abs ≤ 1.7976931348623157e298

theorem scaled_ends :
    ((1.7976931348623157e298 : Binary64) * 1e10).isFinite = true ∧
      (0 : Binary64) ≤ 1.797693134862316e298 * 1e10 ∧
      ((1.797693134862316e298 : Binary64) * 1e10).isFinite = false := by
  decide +kernel

theorem place_ends :
    let most := (1.7976931348623157e298 : Binary64).place.toNat
    twoTo (2012 + 52) ≤ most ∧ twoTo 2012 ∣ most ∧
      (1.797693134862316e298 : Binary64).place.toNat ≤ most + twoTo 2012 := by
  decide +kernel

theorem next_le_of_not_inReach {u : ℕ} {h : Representable u} (beyond : ¬ InReach (.finite false u h)) :
    (1.797693134862316e298 : Binary64) ≤ .finite false u h := by
  obtain ⟨most, hm, bound, _⟩ :=
    exists_units (show (1.7976931348623157e298 : Binary64).isFinite = true by decide +kernel) (by decide +kernel)
  obtain ⟨next, hn, after, _⟩ :=
    exists_units (show (1.797693134862316e298 : Binary64).isFinite = true by decide +kernel) (by decide +kernel)
  obtain ⟨large, whole, step⟩ := place_ends
  rw [bound] at large whole step
  rw [InReach, abs_finite, bound] at beyond
  rw [after] at step ⊢
  have less : most < u := by
    by_contra other
    exact beyond ((le_iff _ _).mpr ⟨by simp, by simp, Int.ofNat_le.mpr (not_lt.mp other)⟩)
  have least : most + twoTo 2012 ≤ u := add_step_le_of_lt h large whole less
  exact (le_iff _ _).mpr ⟨by simp, by simp, Int.ofNat_le.mpr (step.trans least)⟩

theorem isFinite_scaled_iff {x : Binary64} (finite : x.isFinite = true) :
    (x * 1e10).isFinite = true ↔ InReach x := by
  obtain ⟨v, hv, tens, solid⟩ := exists_units_tenBillion
  obtain ⟨negative, u, h, rfl⟩ := exists_finite finite
  obtain ⟨most, start, next⟩ := scaled_ends
  have scaling := scaling_mul v hv solid
  have unsigned : (Binary64.finite negative u h * 1e10).isFinite =
      (Binary64.finite false u h * 1e10).isFinite := by
    rw [tens, mul_finite, mul_finite, isFinite_nearest]
    exact (isFinite_nearest _ _ _).symm
  have magnitude : InReach (.finite negative u h) ↔ InReach (.finite false u h) := Iff.rfl
  -- Products keep their order, so the two numbers at the ends of the reach settle all others.
  rw [unsigned, magnitude]
  rw [tens] at most start next ⊢
  constructor
  · intro product
    by_contra beyond
    have above := scaling.le_of_le (next_le_of_not_inReach beyond)
    have bounded := isFinite_of_between (by decide +kernel) product start above
    rw [next] at bounded
    cases bounded
  · intro le
    have nonneg : 0 ≤ (Binary64.finite false u h * .finite false v hv).place :=
      scaling.nonneg (by simp) (Int.natCast_nonneg u)
    have least : 0 ≤ Binary64.finite false u h * .finite false v hv :=
      (le_iff _ _).mpr ⟨by decide +kernel, scaling.ne_nan (by simp), by rwa [place_zero]⟩
    exact isFinite_of_between (by decide +kernel) most least (scaling.le_of_le le)

theorem isFinite_roundValue_iff {x : Binary64} (finite : x.isFinite = true) :
    (roundValue x).isFinite = true ↔ InReach x := by
  obtain ⟨v, hv, tens, solid⟩ := exists_units_tenBillion
  have large : unitsPerOne ≤ v := by
    have places : (unitsPerOne : ℤ) ≤ (1e10 : Binary64).place := by decide +kernel
    rw [tens] at places
    exact Int.ofNat_le.mp places
  have rounded : (toPlaces x).isFinite = (x * 1e10).isFinite := by
    rw [toPlaces, tens, isFinite_div hv large, isFinite_round]
  have zeroed : (roundValue x).isFinite = (toPlaces x).isFinite := by
    rw [roundValue_eq]
    split
    next zero =>
      cases places : toPlaces x with
      | finite =>
        rw [isFinite_finite]
        decide +kernel
      | infinite => simp [places, isZero] at zero
      | nan => simp [places, isZero] at zero
    next => rfl
  rw [zeroed, rounded, isFinite_scaled_iff finite]

theorem values_between {r : StepRange} {count : ℕ} {vs : List Binary64} (accepted : Accepted r count)
    (listed : r.valuesFrom none 0 count = .ok vs) {v : Binary64} (member : v ∈ vs) :
    v = roundValue r.last ∨ count ≠ 0 ∧ roundValue r.first ≤ v ∧ v ≤ roundValue r.last := by
  have rises := values_pairwise accepted listed
  by_cases final : v = roundValue r.last
  · exact .inl final
  · have several : count ≠ 0 := by
      rintro rfl
      obtain rfl : [roundValue r.last] = vs := Except.ok.inj listed
      exact final (List.mem_singleton.mp member)
    refine .inr ⟨several, ?_, ?_⟩
    · obtain ⟨rest, rfl⟩ := List.head?_eq_some_iff.mp (head_of_values accepted listed several)
      rcases List.mem_cons.mp member with rfl | later
      · have number := roundValue_ne_nan (ne_nan_of_isFinite accepted.firstFinite)
        exact (le_iff _ _).mpr ⟨number, number, le_rfl⟩
      · exact le_of_lt (List.rel_of_pairwise_cons rises later)
    · obtain ⟨kept, _, rfl⟩ := valuesFrom_eq listed
      rcases List.mem_append.mp member with earlier | last
      · exact le_of_lt ((List.pairwise_append.mp rises).2.2 v earlier _ (List.mem_singleton_self _))
      · exact absurd (List.mem_singleton.mp last) final

theorem values_isFinite_iff {r : StepRange} {count : ℕ} {vs : List Binary64} (accepted : Accepted r count)
    (listed : r.valuesFrom none 0 count = .ok vs) :
    (∀ v ∈ vs, v.isFinite = true) ↔ InReach r.last ∧ (count = 0 ∨ InReach r.first) := by
  rw [← isFinite_roundValue_iff accepted.lastFinite, ← isFinite_roundValue_iff accepted.firstFinite]
  constructor
  · intro finite
    obtain ⟨kept, _, split⟩ := valuesFrom_eq listed
    refine ⟨finite _ (by simp [split]), ?_⟩
    by_contra other
    obtain ⟨several, first⟩ := not_or.mp other
    exact first (finite _ (List.mem_of_head? (head_of_values accepted listed several)))
  · rintro ⟨last, first⟩ v member
    rcases values_between accepted listed member with rfl | ⟨several, low, high⟩
    · exact last
    · exact isFinite_of_between (first.resolve_left several) last low high

end StepRange

namespace ValueType

open Text

def ofUnit : ScaleUnit → ValueType
  | .percentage => .percentage
  | _ => .length

theorem reads_append_suffix {number : List Char} (signed : Signed Plain number) (unit : ScaleUnit) :
    Reads (ofUnit unit) (number ++ unit.suffix.toList) := by
  have listed : ∃ u ∈ unitsOf (ofUnit unit), lower unit.suffix.toList = lower u.toList :=
    ⟨unit.suffix, by cases unit <;> decide, rfl⟩
  have dimension : Dimension (unitsOf (ofUnit unit)) (number ++ unit.suffix.toList) :=
    ⟨number, unit.suffix.toList, signed, listed, rfl⟩
  cases unit <;> exact dimension

theorem solid_append_suffix {number : List Char} (signed : Signed Plain number) (unit : ScaleUnit) :
    ∀ c ∈ number ++ unit.suffix.toList, isBlank c = false := by
  intro c member
  rcases List.mem_append.mp member with numeral | letter
  · exact isBlank_of_isNumeral ((isNumeral_of_signed signed).2 c numeral)
  · have letters : (unit.suffix.toList.all (! isBlank ·)) = true := by cases unit <;> decide
    simpa using List.all_eq_true.mp letters c letter

theorem of_finite {v : Binary64} (finite : v.isFinite = true) (unit : ScaleUnit) :
    of (v.toText ++ unit.suffix) = ofUnit unit := by
  obtain ⟨negative, u, h, rfl⟩ := Binary64.exists_finite finite
  have signed := signed_of_plain (plain_toText (Digits.of u)) negative
  have text : (Binary64.toText (.finite negative u h)).toList =
      signText negative ++ (Digits.of u).toText.toList := by
    cases negative <;> simp [Binary64.toText, signText]
  rw [of, String.toList_append, text, trim_of_solid (solid_append_suffix signed unit)]
  exact ofTrimmed_of_reads (reads_append_suffix signed unit)

theorem of_infinite (negative : Bool) (unit : ScaleUnit) :
    of ((Binary64.infinite negative).toText ++ unit.suffix) = .universal := by
  cases negative <;> cases unit <;> decide +kernel

end ValueType

namespace Scale

open StepRange

/--
The entries of a scale have the type of its unit where the value is finite, and no type of their own where it
is not. All are finite exactly if the ends of the range are in reach, where only the last counts for a range
shorter than half a step.
-/
theorem types_of_values {r : StepRange} {vs : List Binary64} (answered : r.values = .ok vs)
    (unit : ScaleUnit) :
    of r unit.suffix = .ok (vs.map (entry unit.suffix)) ∧
      (∀ v ∈ vs, ValueType.of (entry unit.suffix v).2 =
        if v.isFinite then ValueType.ofUnit unit else .universal) ∧
      ((∀ v ∈ vs, v.isFinite = true) ↔
        InReach r.last ∧ ((r.last - r.first) / r.step < 0.5 ∨ InReach r.first)) := by
  obtain ⟨count, counted, listed⟩ := values_eq answered
  have accepted := accepted_of_steps counted
  have numbers := values_ne_nan accepted listed
  refine ⟨of_eq_entries answered (values_pairwise accepted listed) unit.suffix, fun v member => ?_, ?_⟩
  · split
    next finite => exact ValueType.of_finite finite unit
    next overflow =>
      cases v with
      | finite => exact absurd rfl overflow
      | infinite negative => exact ValueType.of_infinite negative unit
      | nan => exact absurd rfl (numbers _ member)
  · rw [values_isFinite_iff accepted listed, count_eq_zero_iff accepted]

theorem types_of_values_overflow :
    let r : StepRange := ⟨0, 1e300, 1e300⟩
    r.values = .ok [0, .infinite false] ∧ ValueType.of "infpx" = .universal ∧
      ¬ (InReach r.last ∧ ((r.last - r.first) / r.step < 0.5 ∨ InReach r.first)) := by
  have answered : (StepRange.mk 0 1e300 1e300).values = .ok [0, .infinite false] := by decide +kernel
  obtain ⟨_, types, finite⟩ := types_of_values answered .px
  refine ⟨answered, types (.infinite false) (by simp), fun inReach => ?_⟩
  have all := finite.mpr inReach
  exact absurd (all (.infinite false) (by simp)) (by decide)

end Scale

end DesignTokens
