import DesignTokens.Proofs.LastWrites
import DesignTokens.Proofs.NumberOrder
import DesignTokens.Proofs.ShortestTexts
import DesignTokens.Scale

set_option autoImplicit false

namespace DesignTokens

open Binary64

namespace Binary64

theorem add_ne_nan {a b : Binary64} (finite : a.isFinite = true) (number : b ≠ .nan) :
    a + b ≠ .nan := by
  change add a b ≠ .nan
  cases a with
  | finite s u hu =>
    cases b with
    | finite t v hv =>
      simp only [add]
      split
      · simp [zero]
      · exact nearest_ne_nan _ _ _
    | infinite t => simp [add]
    | nan => exact absurd rfl number
  | infinite s => simp [isFinite] at finite
  | nan => simp [isFinite] at finite

theorem ofNat_ne_nan (n : ℕ) : ofNat n ≠ .nan := nearest_ne_nan _ _ _

theorem mul_ne_nan {a b : Binary64} (number : a ≠ .nan) (finite : b.isFinite = true)
    (positive : 0 < b) : a * b ≠ .nan := by
  obtain ⟨v, h, rfl, solid⟩ := exists_units finite positive
  exact (scaling_mul v h solid).ne_nan number

end Binary64

namespace StepRange

theorem exists_units_tenBillion : ∃ u h, (1e10 : Binary64) = .finite false u h ∧ u ≠ 0 :=
  exists_units (by decide +kernel) (by decide +kernel)

-- Rounding before a negative zero is put right.
def toPlaces (x : Binary64) : Binary64 := (x * 1e10).round / 1e10

theorem toPlaces_ne_nan {x : Binary64} (number : x ≠ .nan) : toPlaces x ≠ .nan := by
  obtain ⟨u, h, tens, solid⟩ := exists_units_tenBillion
  unfold toPlaces
  rw [tens]
  exact (scaling_div u h solid).ne_nan (scaling_round.ne_nan ((scaling_mul u h solid).ne_nan number))

theorem toPlaces_mono {x y : Binary64} (le : x ≤ y) : toPlaces x ≤ toPlaces y := by
  obtain ⟨u, h, tens, solid⟩ := exists_units_tenBillion
  unfold toPlaces
  rw [tens]
  exact (scaling_div u h solid).le_of_le (scaling_round.le_of_le ((scaling_mul u h solid).le_of_le le))

theorem roundValue_eq (x : Binary64) :
    roundValue x = if (toPlaces x).isZero then 0 else toPlaces x := rfl

theorem roundValue_ne_nan {x : Binary64} (number : x ≠ .nan) : roundValue x ≠ .nan := by
  rw [roundValue_eq]
  split
  · decide +kernel
  · exact toPlaces_ne_nan number

theorem place_roundValue (x : Binary64) : (roundValue x).place = (toPlaces x).place := by
  rw [roundValue_eq]
  split
  next zero =>
    rw [place_zero]
    cases places : toPlaces x with
    | finite s u h =>
      obtain rfl : u = 0 := by simpa [places, isZero] using zero
      exact (signed_zero s).symm
    | infinite s => simp [places, isZero] at zero
    | nan => rfl
  next => rfl

theorem roundValue_mono {x y : Binary64} (le : x ≤ y) : roundValue x ≤ roundValue y := by
  obtain ⟨hx, hy, _⟩ := (le_iff x y).mp le
  refine (le_iff _ _).mpr ⟨roundValue_ne_nan hx, roundValue_ne_nan hy, ?_⟩
  rw [place_roundValue, place_roundValue]
  exact ((le_iff _ _).mp (toPlaces_mono le)).2.2

theorem roundValue_eq_of_place {x y : Binary64} (hx : x ≠ .nan) (hy : y ≠ .nan)
    (same : (roundValue x).place = (roundValue y).place) : roundValue x = roundValue y := by
  have zero_or (z : Binary64) : roundValue z = 0 ∨ (roundValue z).isZero = false := by
    rw [roundValue_eq]
    by_cases zero : (toPlaces z).isZero <;> simp [zero]
  rcases zero_or x with zero | solid
  · rcases zero_or y with other | solid
    · rw [zero, other]
    · exact (eq_of_place_eq (roundValue_ne_nan hy) (roundValue_ne_nan hx) solid same.symm).symm
  · exact eq_of_place_eq (roundValue_ne_nan hx) (roundValue_ne_nan hy) solid same

def value (r : StepRange) (i : ℕ) : Binary64 := roundValue (r.first + .ofNat i * r.step)

structure Accepted (r : StepRange) (count : ℕ) : Prop where
  firstFinite : r.first.isFinite = true
  stepFinite : r.step.isFinite = true
  lastFinite : r.last.isFinite = true
  positive : 0 < r.step
  ordered : r.first ≤ r.last
  count_eq : count = (((r.last - r.first) / r.step).round.toIntWithin 0 10000).toNat

theorem accepted_of_steps {r : StepRange} {count : ℕ} (counted : r.steps = .ok count) :
    Accepted r count := by
  simp only [steps] at counted
  split at counted
  next => cases counted
  next finite =>
  split at counted
  next => cases counted
  next positive =>
  split at counted
  next => cases counted
  next =>
  split at counted
  next => cases counted
  next ordered =>
  split at counted
  next => cases counted
  next =>
    obtain ⟨⟨first, step⟩, last⟩ : (r.first.isFinite = true ∧ r.step.isFinite = true) ∧
        r.last.isFinite = true := by
      simpa [isFinite] using finite
    refine ⟨first, step, last, ?_, ?_, ?_⟩
    · exact lt_of_not_le (by decide +kernel) (ne_nan_of_isFinite step) positive
    · exact le_of_not_lt (ne_nan_of_isFinite last) (ne_nan_of_isFinite first) ordered
    · exact (Except.ok.inj counted).symm

theorem Accepted.count_le {r : StepRange} {count : ℕ} (accepted : Accepted r count) :
    count ≤ 10000 := by
  rw [accepted.count_eq]
  cases ((r.last - r.first) / r.step).round with
  | finite negative u h =>
    simp only [toIntWithin]
    omega
  | infinite negative => cases negative <;> decide
  | nan => decide

theorem valuesFrom_step (r : StepRange) (before : Option Binary64) (i left : ℕ) :
    r.valuesFrom before i (left + 1) =
      if roundValue r.last ≤ r.value i then .ok [roundValue r.last]
      else if before.any fun b => r.value i ≤ b then .error (r.fault .stepLost)
      else do return r.value i :: (← r.valuesFrom (some (r.value i)) (i + 1) left) := rfl

theorem valuesFrom_succ {r : StepRange} {before : Option Binary64} {i left : ℕ} {vs : List Binary64}
    (answered : r.valuesFrom before i (left + 1) = .ok vs) :
    (roundValue r.last ≤ r.value i ∧ vs = [roundValue r.last]) ∨
      (¬ roundValue r.last ≤ r.value i ∧ (∀ b ∈ before, ¬ r.value i ≤ b) ∧
        ∃ rest, vs = r.value i :: rest ∧
          r.valuesFrom (some (r.value i)) (i + 1) left = .ok rest) := by
  rw [valuesFrom_step] at answered
  split at answered
  next reached => exact .inl ⟨reached, (Except.ok.inj answered).symm⟩
  next under =>
    split at answered
    next => cases answered
    next rises =>
      cases later : r.valuesFrom (some (r.value i)) (i + 1) left with
      | error fault => simp [later, bind, Except.bind] at answered
      | ok rest =>
        rw [later] at answered
        refine .inr ⟨under, ?_, rest, (Except.ok.inj answered).symm, rfl⟩
        rintro b rfl le
        exact rises (by simpa using le)

/-- The values are those of the numbers from `i` on, up to one that the end takes the place of. -/
theorem valuesFrom_eq {r : StepRange} {before : Option Binary64} {i left : ℕ} {vs : List Binary64}
    (answered : r.valuesFrom before i left = .ok vs) :
    ∃ kept ≤ left, vs = (List.range' i kept).map r.value ++ [roundValue r.last] := by
  induction left generalizing before i vs with
  | zero => exact ⟨0, Nat.le_refl 0, (Except.ok.inj answered).symm⟩
  | succ left ih =>
    rcases valuesFrom_succ answered with ⟨_, rfl⟩ | ⟨_, _, rest, rfl, later⟩
    · exact ⟨0, Nat.zero_le _, rfl⟩
    · obtain ⟨kept, within, rfl⟩ := ih later
      exact ⟨kept + 1, by omega, by simp [List.range'_succ]⟩

theorem valuesFrom_rises {r : StepRange} {before : Option Binary64} {i left : ℕ} {vs : List Binary64}
    (answered : r.valuesFrom before i left = .ok vs)
    (under : ∀ b ∈ before, ¬ roundValue r.last ≤ b) :
    (before.toList ++ vs).IsChain fun a b => ¬ b ≤ a := by
  induction left generalizing before i vs with
  | zero =>
    obtain rfl : [roundValue r.last] = vs := Except.ok.inj answered
    cases before <;> simp [under]
  | succ left ih =>
    rcases valuesFrom_succ answered with ⟨_, rfl⟩ | ⟨below, rises, rest, rfl, later⟩
    · cases before <;> simp [under]
    · have chain := ih later (by simpa using below)
      cases before with
      | none => exact chain
      | some b => exact List.isChain_cons_cons.mpr ⟨rises b rfl, chain⟩

theorem value_ne_nan {r : StepRange} {count : ℕ} (accepted : Accepted r count) (i : ℕ) :
    r.value i ≠ .nan := by
  apply roundValue_ne_nan
  apply add_ne_nan accepted.firstFinite
  exact mul_ne_nan (ofNat_ne_nan i) accepted.stepFinite accepted.positive

theorem values_eq {r : StepRange} {vs : List Binary64} (answered : r.values = .ok vs) :
    ∃ count, r.steps = .ok count ∧ r.valuesFrom none 0 count = .ok vs := by
  unfold values at answered
  cases counted : r.steps with
  | error fault => simp [counted, bind, Except.bind] at answered
  | ok count => exact ⟨count, rfl, by simpa [counted, bind, Except.bind] using answered⟩

theorem zero_mul_step {step : Binary64} (finite : step.isFinite = true) (positive : 0 < step) :
    ofNat 0 * step = zero false := by
  obtain ⟨v, hv, rfl, solid⟩ := exists_units finite positive
  rw [show ofNat 0 = zero false by decide +kernel]
  refine ((scaling_mul v hv solid).finite false 0 representable_zero).trans ?_
  exact nearest_of_representable false unitsPerOne_pos representable_zero
    (by rw [Nat.zero_mul, Nat.cast_zero, zero_div])

-- Nothing added to a number leaves it, but for the sign of zero, which rounding drops.
theorem roundValue_add_zero {x : Binary64} (finite : x.isFinite = true) :
    roundValue (x + zero false) = roundValue x := by
  cases x with
  | finite s u h =>
    change roundValue (add (.finite s u h) (zero false)) = _
    simp only [zero, add, signed_zero, Int.add_zero]
    by_cases blank : u = 0
    · subst blank
      rw [if_pos (signed_zero s), Bool.and_false]
      cases s
      · rfl
      · change roundValue (zero false) = roundValue (zero true)
        decide +kernel
    · have sum : signed s u ≠ 0 := by
        intro cancelled
        exact blank (by simpa [natAbs_signed] using congrArg Int.natAbs cancelled)
      have negative : decide (signed s u < 0) = s := by
        cases s
        · simp [signed]
        · simp [signed]
          omega
      rw [if_neg sum, negative, natAbs_signed,
        nearest_of_representable s Nat.one_pos h (by simp)]
  | infinite s => cases finite
  | nan => cases finite

theorem value_zero {r : StepRange} {count : ℕ} (accepted : Accepted r count) :
    r.value 0 = roundValue r.first := by
  rw [value, zero_mul_step accepted.stepFinite accepted.positive]
  exact roundValue_add_zero accepted.firstFinite

end StepRange

namespace Binary64

theorem place_half : 2 * (0.5 : Binary64).place = unitsPerOne := by decide +kernel

theorem representable_one : Representable unitsPerOne := by decide +kernel

theorem round_of_short {s : Bool} {u : ℕ} {h : Representable u} (short : 2 * u < unitsPerOne) :
    Binary64.round (.finite s u h) = .finite s 0 representable_zero := by
  rw [scaling_round.finite, Nat.div_eq_of_lt (by omega), Nat.zero_mul]
  exact nearest_of_representable s Nat.one_pos representable_zero (by rw [Nat.cast_one, div_one])

theorem toIntWithin_round_of_short {x : Binary64} (nonneg : 0 ≤ x.place) (short : x < 0.5) :
    x.round.toIntWithin 0 10000 = 0 := by
  have half := place_half
  have places := ((lt_iff _ _).mp short).2.2
  cases x with
  | finite s u h =>
    have small : 2 * u < unitsPerOne := by
      cases s <;> simp only [place, signed, if_true, Bool.false_eq_true, if_false] at * <;> omega
    rw [round_of_short small]
    simp [toIntWithin, signed_zero]
  | infinite s =>
    have bound : unitsPerOne < limit := lt_limit representable_one
    cases s <;> simp only [place, signed, if_true, Bool.false_eq_true, if_false] at * <;> omega
  | nan => exact absurd rfl ((lt_iff _ _).mp short).1

theorem one_le_toIntWithin {x : Binary64} (le : 1 ≤ x) : 1 ≤ x.toIntWithin 0 10000 := by
  obtain ⟨_, number, places⟩ := (le_iff 1 x).mp le
  have positive := unitsPerOne_pos
  rw [show (1 : Binary64).place = unitsPerOne by decide +kernel] at places
  cases x with
  | finite s u h =>
    cases s with
    | false =>
      have most : unitsPerOne ≤ u := Int.ofNat_le.mp places
      have whole : 1 ≤ u / unitsPerOne := (Nat.le_div_iff_mul_le positive).mpr (by omega)
      simp only [toIntWithin, signed, Bool.false_eq_true, if_false]
      omega
    | true =>
      simp only [place, signed, if_true] at places
      omega
  | infinite s =>
    cases s with
    | false => simp [toIntWithin]
    | true =>
      simp only [place, signed, if_true] at places
      omega
  | nan => exact absurd rfl number

theorem wholeSteps_eq_zero_iff {x : Binary64} (number : x ≠ .nan) (nonneg : 0 ≤ x.place) :
    (x.round.toIntWithin 0 10000).toNat = 0 ↔ x < 0.5 := by
  by_cases short : x < 0.5
  · simp only [toIntWithin_round_of_short nonneg short, short, Int.toNat_zero]
  · have rounded := scaling_round.le_of_le (le_of_not_lt number (by decide +kernel) short)
    rw [show Binary64.round 0.5 = 1 by decide +kernel] at rounded
    have counted := one_le_toIntWithin rounded
    simp only [short, iff_false]
    omega

theorem sub_nonneg {a b : Binary64} (fa : a.isFinite = true) (fb : b.isFinite = true) (le : b ≤ a) :
    a - b ≠ .nan ∧ 0 ≤ (a - b).place := by
  obtain ⟨_, _, places⟩ := (le_iff b a).mp le
  change sub a b ≠ .nan ∧ 0 ≤ (sub a b).place
  cases a with
  | finite s u hu =>
    cases b with
    | finite t v hv =>
      simp only [place] at places
      simp only [sub, neg, add, signed_not]
      split
      next => exact ⟨by simp [zero], by simp [zero, place, signed_zero]⟩
      next =>
        have forward : decide (signed s u + -signed t v < 0) = false := decide_eq_false (by omega)
        rw [forward]
        exact ⟨nearest_ne_nan _ _ _, place_nearest_nonneg _ _ Nat.one_pos⟩
    | infinite t => simp [isFinite] at fb
    | nan => simp [isFinite] at fb
  | infinite s => simp [isFinite] at fa
  | nan => simp [isFinite] at fa

end Binary64

namespace StepRange

theorem count_eq_zero_iff {r : StepRange} {count : ℕ} (accepted : Accepted r count) :
    count = 0 ↔ (r.last - r.first) / r.step < 0.5 := by
  obtain ⟨v, h, step, solid⟩ := exists_units accepted.stepFinite accepted.positive
  obtain ⟨number, nonneg⟩ := sub_nonneg accepted.lastFinite accepted.firstFinite accepted.ordered
  have scaling := scaling_div v h solid
  rw [accepted.count_eq, step]
  exact wholeSteps_eq_zero_iff (scaling.ne_nan number) (scaling.nonneg number nonneg)

theorem roundValue_antisymm {x y : Binary64} (le : x ≤ y) (ge : roundValue y ≤ roundValue x) :
    roundValue x = roundValue y := by
  obtain ⟨hx, hy, _⟩ := (le_iff x y).mp le
  have up := ((le_iff _ _).mp (roundValue_mono le)).2.2
  have down := ((le_iff _ _).mp ge).2.2
  exact roundValue_eq_of_place hx hy (by omega)

theorem head_of_values {r : StepRange} {count : ℕ} {vs : List Binary64} (accepted : Accepted r count)
    (listed : r.valuesFrom none 0 count = .ok vs) (several : count ≠ 0) :
    vs.head? = some (roundValue r.first) := by
  obtain ⟨left, rfl⟩ := Nat.exists_eq_succ_of_ne_zero several
  have first := value_zero accepted
  rcases valuesFrom_succ listed with ⟨reached, rfl⟩ | ⟨_, _, rest, rfl, _⟩
  · rw [first] at reached
    rw [roundValue_antisymm accepted.ordered reached]
    rfl
  · rw [first]
    rfl

/--
The last value is the end of the range. The first is its start, and the start is among the values at
all, exactly where the range is half a step long or its two ends are rounded to one value; elsewhere the
end stands alone.
-/
theorem ends_of_values {r : StepRange} {vs : List Binary64} (answered : r.values = .ok vs) :
    vs.getLast? = some (roundValue r.last) ∧
      (vs.head? = some (roundValue r.first) ↔
        ¬ (r.last - r.first) / r.step < 0.5 ∨ roundValue r.first = roundValue r.last) ∧
      (roundValue r.first ∈ vs ↔ vs.head? = some (roundValue r.first)) ∧
      ((r.last - r.first) / r.step < 0.5 → vs = [roundValue r.last]) := by
  obtain ⟨count, counted, answered⟩ := values_eq answered
  have accepted := accepted_of_steps counted
  rw [← count_eq_zero_iff accepted]
  cases count with
  | zero =>
    obtain rfl : [roundValue r.last] = vs := Except.ok.inj answered
    simp [eq_comm]
  | succ count =>
    have head := head_of_values accepted answered count.succ_ne_zero
    have last : vs.getLast? = some (roundValue r.last) := by
      obtain ⟨kept, _, rfl⟩ := valuesFrom_eq answered
      simp
    exact ⟨last, by simp [head], by simp [head, List.mem_of_head? head], by simp⟩

theorem ends_of_values_short :
    (StepRange.mk 0 10 4).values = .ok [4] ∧ roundValue 0 ∉ [(4 : Binary64)] := by
  have answered : (StepRange.mk 0 10 4).values = .ok [4] := by decide +kernel
  obtain ⟨_, head, member, _⟩ := ends_of_values answered
  exact ⟨answered, by rw [member, head]; decide +kernel⟩

theorem values_ne_nan {r : StepRange} {count : ℕ} {vs : List Binary64}
    (accepted : Accepted r count) (listed : r.valuesFrom none 0 count = .ok vs) :
    ∀ v ∈ vs, v ≠ .nan := by
  obtain ⟨kept, _, rfl⟩ := valuesFrom_eq listed
  intro v member
  rcases List.mem_append.mp member with earlier | last
  · obtain ⟨i, _, rfl⟩ := List.mem_map.mp earlier
    exact value_ne_nan accepted i
  · obtain rfl := List.mem_singleton.mp last
    exact roundValue_ne_nan (ne_nan_of_isFinite accepted.lastFinite)

theorem values_pairwise {r : StepRange} {count : ℕ} {vs : List Binary64}
    (accepted : Accepted r count) (listed : r.valuesFrom none 0 count = .ok vs) :
    vs.Pairwise (· < ·) := by
  have numbers := values_ne_nan accepted listed
  have rises : vs.IsChain fun a b => ¬ b ≤ a := valuesFrom_rises listed (by simp)
  have increases : vs.IsChain (· < ·) := rises.imp_of_mem_imp fun a b ha hb more =>
    lt_of_not_le (numbers a ha) (numbers b hb) more
  exact increases.pairwise

end StepRange

namespace Scale

theorem of_eq_entries {r : StepRange} {vs : List Binary64} (answered : r.values = .ok vs)
    (increases : vs.Pairwise (· < ·)) (suffix : String) :
    of r suffix = .ok (vs.map (entry suffix)) := by
  have distinct : OrderedMap.Distinct (vs.map (entry suffix)) := by
    have keys : OrderedMap.keys (vs.map (entry suffix)) = vs.map toText := by
      simp [OrderedMap.keys, entry]
    rw [OrderedMap.Distinct, keys]
    apply List.Nodup.map toText_injective
    exact increases.imp ne_of_lt
  unfold of
  rw [answered]
  exact congrArg Except.ok (OrderedMap.ofList_of_distinct _ distinct)

end Scale

namespace StepRange

/--
The values are finite in number and rise without a repetition; each but the last is the rounded value of
its number, and a scale has one entry for each in their order.
-/
theorem values_rise {r : StepRange} {vs : List Binary64} (answered : r.values = .ok vs) :
    vs ≠ [] ∧ vs.length ≤ 10001 ∧ vs.getLast? = some (roundValue r.last) ∧
      vs.IsChain (fun a b => ¬ b ≤ a) ∧ vs.Pairwise (· < ·) ∧
      (∀ i, i + 1 < vs.length → vs[i]? = some (roundValue (r.first + .ofNat i * r.step))) ∧
      ∀ suffix, Scale.of r suffix = .ok (vs.map fun v => (v.toText, v.toText ++ suffix)) := by
  obtain ⟨count, counted, listed⟩ := values_eq answered
  have accepted := accepted_of_steps counted
  have count_le := accepted.count_le
  have rises : vs.IsChain fun a b => ¬ b ≤ a := valuesFrom_rises listed (by simp)
  have increases := values_pairwise accepted listed
  have entries := Scale.of_eq_entries answered increases
  obtain ⟨kept, within, rfl⟩ := valuesFrom_eq listed
  refine ⟨by simp, ?_, by simp, rises, increases, fun i before => ?_, entries⟩
  · simp
    omega
  · have inside : i < kept := by simpa using before
    rw [List.getElem?_append_left (by simpa using inside)]
    simp [inside, value]

theorem values_rise_inexact :
    (StepRange.mk 0 4 10).values = .ok [0, 4, 8, 10] ∧
      Scale.of (StepRange.mk 0 4 10) "px" =
        .ok [("0", "0px"), ("4", "4px"), ("8", "8px"), ("10", "10px")] := by
  have answered : (StepRange.mk 0 4 10).values = .ok [0, 4, 8, 10] := by decide +kernel
  obtain ⟨_, _, _, _, _, _, entries⟩ := values_rise answered
  exact ⟨answered, (entries "px").trans (by decide +kernel)⟩

end StepRange

end DesignTokens
