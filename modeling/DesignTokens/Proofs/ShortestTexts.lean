import DesignTokens.Number.Writing
import DesignTokens.Proofs.DecimalTexts
import DesignTokens.Proofs.NearestNumbers

set_option autoImplicit false

namespace DesignTokens

open Binary64

namespace Digits

/--
The ratios that round to `u`, with `2 ^ e` for the spacing around it: half a step on either side, a
quarter below a power of two, and the ends where the last bit of `u` is even.
-/
structure Within (x : ℚ) (u e : ℕ) : Prop where
  low : (u : ℚ) ≤ x + 2 ^ e / 2
  high : x ≤ u + 2 ^ e / 2
  power : e ≠ 0 → u = 2 ^ (52 + e) → (u : ℚ) ≤ x + 2 ^ e / 4
  tie : (u : ℚ) = x + 2 ^ e / 2 ∨ x = u + 2 ^ e / 2 → u / 2 ^ e % 2 = 0

namespace Within

variable {x : ℚ} {u e n : ℕ}

theorem closestWhole (within : Within x u e) (units : u = n * 2 ^ e) :
    ClosestWhole (x / 2 ^ e) n := by
  obtain ⟨low, high, _, tie⟩ := within
  have spacing : (0 : ℚ) < 2 ^ e := by positivity
  have size : (u : ℚ) = n * 2 ^ e := by exact_mod_cast units
  rw [size] at low high tie
  rw [units, Nat.mul_div_cancel n (by positivity)] at tie
  refine ⟨?_, ?_, fun tied => tie ?_⟩
  · rw [← sub_le_iff_le_add, le_div_iff₀ spacing]
    linarith
  · rw [div_le_iff₀ spacing]
    linarith
  · rcases tied with tied | tied
    · left
      rw [tied]
      field_simp
    · right
      rw [div_eq_iff spacing.ne'] at tied
      linarith

theorem below (within : Within x u e) (units : u = n * 2 ^ e) (bits : u < 2 ^ (53 + e)) :
    x < 2 ^ (53 + e) := by
  have high := within.high
  have spacing : (0 : ℚ) < 2 ^ e := by positivity
  have count : n < 2 ^ 53 := by
    rw [units, pow_add] at bits
    exact Nat.lt_of_mul_lt_mul_right bits
  have step : (n : ℚ) + 1 ≤ 2 ^ 53 := by exact_mod_cast count
  have scaled := mul_le_mul_of_nonneg_right step spacing.le
  have size : (u : ℚ) = n * 2 ^ e := by exact_mod_cast units
  rw [pow_add]
  linarith

-- Below the binade of `u` only a power of two is close enough, and the grid there is finer.
theorem closestAt_under (within : Within x u (e + 1)) (units : u = n * 2 ^ (e + 1))
    (least : 2 ^ (52 + (e + 1)) ≤ u) (under : x < 2 ^ (52 + (e + 1))) :
    ClosestAt x u e (2 ^ 53) := by
  have fine : (0 : ℚ) < 2 ^ e := by positivity
  have halved : (2 : ℚ) ^ (e + 1) = 2 * 2 ^ e := by ring
  have doubled : (2 : ℚ) ^ (52 + (e + 1)) = 2 ^ 53 * 2 ^ e := by rw [← pow_add]; ring
  have count : n = 2 ^ 52 := by
    have large : 2 ^ 52 ≤ n := by
      rw [units, pow_add] at least
      exact Nat.le_of_mul_le_mul_right least (by positivity)
    by_contra other
    have step : (2 : ℚ) ^ 52 + 1 ≤ n := by
      exact_mod_cast show 2 ^ 52 + 1 ≤ n by omega
    have scaled := mul_le_mul_of_nonneg_right step fine.le
    have low := within.low
    have size : (u : ℚ) = n * 2 ^ (e + 1) := by exact_mod_cast units
    rw [size, halved] at low
    linarith
  have power : u = 2 ^ (52 + (e + 1)) := by rw [units, count, ← pow_add]
  have close := within.power (Nat.succ_ne_zero e) power
  have size : (u : ℚ) = 2 ^ 53 * 2 ^ e := by rw [← doubled]; exact_mod_cast power
  rw [size, halved] at close
  refine ⟨?_, ⟨?_, ?_, fun _ => by norm_num⟩, ?_, .inr ?_⟩
  · rw [power, ← pow_add]
    congr 1
    omega
  · rw [← sub_le_iff_le_add, le_div_iff₀ fine]
    push_cast
    linarith
  · rw [div_le_iff₀ fine]
    push_cast
    linarith
  · rw [pow_add]
    linarith
  · rw [pow_add]
    linarith

theorem closest (representable : Representable u) (within : Within x u (u.log2 - 52)) :
    Closest x u := by
  have whole : u % 2 ^ (u.log2 - 52) = 0 := representable.2
  have bits : u < 2 ^ (53 + (u.log2 - 52)) :=
    Nat.lt_log2_self.trans_le (Nat.pow_le_pow_right (by decide) (by omega))
  have top : u.log2 - 52 ≠ 0 → 2 ^ (52 + (u.log2 - 52)) ≤ u := fun coarse => by
    rw [show 52 + (u.log2 - 52) = u.log2 by omega]
    exact Nat.log2_self_le fun nothing => coarse (by simp [nothing])
  generalize u.log2 - 52 = e at *
  obtain ⟨n, units⟩ := Nat.dvd_of_mod_eq_zero whole
  rw [Nat.mul_comm] at units
  by_cases inside : e = 0 ∨ 2 ^ (52 + e) ≤ x
  · exact ⟨e, n, units, within.closestWhole units, within.below units bits, inside⟩
  · obtain ⟨coarse, under⟩ := not_or.mp inside
    have least := top coarse
    obtain ⟨d, rfl⟩ := Nat.exists_eq_succ_of_ne_zero coarse
    exact ⟨d, 2 ^ 53, within.closestAt_under units least (not_le.mp under)⟩

end Within

theorem Interval.bounds_of_holds {i : Interval} {num den : ℕ} (held : i.holds num den = true) :
    i.low * den ≤ num ∧ num ≤ i.high * den ∧
      (i.closed = false → i.low * den < num ∧ num < i.high * den) := by
  obtain ⟨low, centre, high, closed⟩ := i
  cases closed <;> simp [holds] at held ⊢ <;> omega

theorem Interval.holds_of_lt {i : Interval} {num den : ℕ} (low : i.low * den < num)
    (high : num < i.high * den) : i.holds num den = true := by
  unfold holds
  split
  · simp [low.le, high.le]
  · simp [low, high]

theorem Interval.low_le_around (u : ℕ) :
    4 * u ≤ (around u).low + 2 * twoTo (u.log2 - 52) ∧
      (52 < u.log2 → u = twoTo u.log2 → 4 * u ≤ (around u).low + twoTo (u.log2 - 52)) := by
  by_cases power : 52 < u.log2 ∧ u = twoTo u.log2
  · simp only [around, if_pos power]
    omega
  · simp only [around, if_neg power]
    refine ⟨by omega, fun coarse same => absurd ⟨coarse, same⟩ power⟩

theorem closest_of_holds {u num den : ℕ} (representable : Representable u) (positive : 0 < den)
    (held : (Interval.around u).holds num den = true) : Closest ((num : ℚ) / den / 4) u := by
  obtain ⟨low, high, strict⟩ := Interval.bounds_of_holds held
  obtain ⟨bound, powerBound⟩ := Interval.low_le_around u
  have size : (0 : ℚ) < den := by exact_mod_cast positive
  have le_iff (a : ℕ) : a * den ≤ num ↔ (a : ℚ) ≤ num / den := by
    rw [le_div_iff₀ size]
    norm_cast
  have ge_iff (a : ℕ) : num ≤ a * den ↔ (num : ℚ) / den ≤ a := by
    rw [div_le_iff₀ size]
    norm_cast
  have closed : (Interval.around u).closed = (u / 2 ^ (u.log2 - 52) % 2 == 0) := rfl
  have top : (Interval.around u).high = 4 * u + 2 * 2 ^ (u.log2 - 52) := rfl
  rw [le_iff] at low
  rw [ge_iff, top] at high
  have bound : (4 * u : ℚ) ≤ (Interval.around u).low + 2 * 2 ^ (u.log2 - 52) := by
    exact_mod_cast bound
  push_cast at high
  refine Within.closest representable ⟨by linarith, by linarith, fun coarse power => ?_, fun tie => ?_⟩
  · have bits : u.log2 = 52 + (u.log2 - 52) := by omega
    have bound := powerBound (by omega) (by rw [← bits] at power; exact power)
    have bound : (4 * u : ℚ) ≤ (Interval.around u).low + 2 ^ (u.log2 - 52) := by
      exact_mod_cast bound
    linarith
  · by_contra odd
    rw [closed] at strict
    obtain ⟨below, above⟩ := strict (by simpa using odd)
    rw [← not_le, ge_iff, not_le] at below
    rw [← not_le, le_iff, not_le, top] at above
    push_cast at above
    rcases tie with tie | tie <;> linarith

theorem gridStep_pos (exponent : ℤ) :
    0 < (gridStep exponent).1 ∧ 0 < (gridStep exponent).2 := by
  have unit := unitsPerOne_pos
  have power := tenTo_pos exponent.natAbs
  unfold gridStep
  split
  · exact ⟨by omega, power⟩
  · exact ⟨Nat.mul_pos (by omega) power, Nat.one_pos⟩

theorem gridStep_ratio (exponent : ℤ) :
    ((gridStep exponent).1 : ℚ) / (gridStep exponent).2 / 4 = 10 ^ exponent * unitsPerOne := by
  have positive := unitsPerOne_pos
  unfold gridStep
  split
  next fraction =>
    have power : exponent = -(exponent.natAbs : ℤ) := by omega
    rw [power, zpow_neg, zpow_natCast, Int.natAbs_neg, Int.natAbs_natCast, tenTo_eq]
    push_cast
    field_simp
  next whole =>
    have power : exponent = (exponent.natAbs : ℤ) := by omega
    rw [power, zpow_natCast, Int.natAbs_natCast, tenTo_eq]
    push_cast
    field_simp

theorem holds_of_onGrid? {i : Interval} {exponent : ℤ} {d : ℕ} (found : onGrid? i exponent = some d) :
    i.holds (d * (gridStep exponent).1) (gridStep exponent).2 = true := by
  simp only [onGrid?] at found
  split at found
  next up =>
    obtain rfl := Option.some.inj found
    simp only [Bool.and_eq_true] at up
    exact up.1
  next =>
    split at found
    next down =>
      obtain rfl := Option.some.inj found
      exact down
    next => cases found

theorem descend_spec {i : Interval} {exponent : ℤ} {fuel : ℕ}
    (last : (onGrid? i (exponent - fuel)).isSome) :
    ∃ d e, descend i exponent (fuel + 1) = ⟨d, e⟩ ∧ onGrid? i e = some d := by
  induction fuel generalizing exponent with
  | zero =>
    obtain ⟨d, found⟩ := Option.isSome_iff_exists.mp last
    rw [Nat.cast_zero, sub_zero] at found
    exact ⟨d, exponent, by rw [descend, found], found⟩
  | succ fuel ih =>
    rw [descend]
    cases found : onGrid? i exponent with
    | some d => exact ⟨d, exponent, rfl, found⟩
    | none =>
      apply ih
      rw [show exponent - 1 - (fuel : ℤ) = exponent - (fuel + 1 : ℕ) by push_cast; omega]
      exact last

theorem onGrid?_of_holds_next {i : Interval} {exponent : ℤ}
    (held : i.holds ((i.centre * (gridStep exponent).2 / (gridStep exponent).1 + 1) *
      (gridStep exponent).1) (gridStep exponent).2 = true) : (onGrid? i exponent).isSome := by
  simp only [onGrid?, held, Bool.true_and]
  split
  next => rfl
  next undecided =>
    rw [if_pos (by simp at undecided; exact undecided.1)]
    rfl

-- On a grid finer than half the spacing the neighbour above the centre is close enough.
theorem onGrid?_of_fine (u : ℕ) (exponent : ℤ)
    (fine : (gridStep exponent).1 < 2 * twoTo (u.log2 - 52) * (gridStep exponent).2) :
    (onGrid? (Interval.around u) exponent).isSome := by
  have positive := (gridStep_pos exponent).1
  apply onGrid?_of_holds_next
  generalize (gridStep exponent).1 = step at *
  generalize (gridStep exponent).2 = den at *
  have low : (Interval.around u).low * den ≤ 4 * u * den := Nat.mul_le_mul_right _ (Nat.sub_le _ _)
  have high : (Interval.around u).high * den = 4 * u * den + 2 * twoTo (u.log2 - 52) * den :=
    Nat.add_mul _ _ _
  have parts := Nat.div_add_mod (4 * u * den) step
  have rest := Nat.mod_lt (4 * u * den) positive
  have next : (4 * u * den / step + 1) * step = step * (4 * u * den / step) + step := by ring
  change (Interval.around u).holds ((4 * u * den / step + 1) * step) den = true
  apply Interval.holds_of_lt
  · omega
  · omega

def start (bits : ℕ) : ℤ := ((bits : ℤ) - 1073) * 30103 / 100000 + 1

theorem fine_of_bits : ∀ bits < 2098, (gridStep (start bits - 21)).1 <
    2 * twoTo (bits - 52) * (gridStep (start bits - 21)).2 := by
  decide +kernel

theorem closest_of (u : ℕ) (representable : Representable u) :
    Closest ((of u).ratio * unitsPerOne) u := by
  rcases Nat.eq_zero_or_pos u with rfl | positive
  · have nothing : (of 0).ratio = 0 := by simp [of, ratio]
    rw [nothing, zero_mul]
    exact closest_zero
  · have bits := log2_lt_of_lt_twoTo positive (by rw [← limit_eq]; exact lt_limit representable)
    have fine := onGrid?_of_fine u _ (fine_of_bits u.log2 bits)
    obtain ⟨d, e, digits, found⟩ := descend_spec fine
    have closest := closest_of_holds representable (gridStep_pos e).2 (holds_of_onGrid? found)
    have chosen : of u = ⟨d, e⟩ := by
      rw [of, if_neg (by omega)]
      exact digits
    have ratio : ((d * (gridStep e).1 : ℕ) : ℚ) / (gridStep e).2 / 4 =
        (of u).ratio * unitsPerOne := by
      rw [chosen, Digits.ratio, mul_assoc, ← gridStep_ratio]
      push_cast
      ring
    rwa [ratio] at closest

theorem head_toText (d : Digits) : ∃ c rest, d.toText.toList = c :: rest ∧ c.isDigit = true := by
  rcases Int.lt_or_le d.exponent 0 with fraction | whole
  · obtain ⟨first, places, text, written, digits, _⟩ := toText_point d fraction
    obtain ⟨c, rest, rfl⟩ := List.exists_cons_of_ne_nil written
    exact ⟨c, _, text, digits c (by simp)⟩
  · have digits := Decimal.areDigits_toDigits d.digits
    obtain ⟨c, rest, first⟩ := List.exists_cons_of_ne_nil (Nat.toDigits_ne_nil (n := d.digits) (b := 10))
    rw [toText_whole d whole, first]
    exact ⟨c, _, rfl, digits c (by simp [first])⟩

end Digits

namespace Binary64

open Decimal

def written (text : String) : Bool × Option ℚ :=
  let (negative, body) := sign text.toList
  (negative, (mantissa? body).map Mantissa.ratio)

theorem sign_of_digit {c : Char} (rest : List Char) (digit : c.isDigit = true) :
    sign (c :: rest) = (false, c :: rest) := by
  have plus : c ≠ '+' := by rintro rfl; simp at digit
  have minus : c ≠ '-' := by rintro rfl; simp at digit
  simp [sign, plus, minus]

theorem written_finite (negative : Bool) (u : ℕ) (h : Representable u) :
    written (toText (.finite negative u h)) = (negative, some (Digits.of u).ratio) := by
  obtain ⟨c, rest, text, digit⟩ := Digits.head_toText (Digits.of u)
  obtain ⟨m, read, _, ratio⟩ := Digits.mantissa?_toText (Digits.of u)
  rw [text] at read
  cases negative
  · simp [written, toText, text, sign_of_digit rest digit, read, ratio]
  · simp [written, toText, text, sign, read, ratio]

theorem written_infinite (negative : Bool) :
    written (toText (.infinite negative)) = (negative, none) := by
  cases negative <;> decide

theorem written_nan : written (toText .nan) = (false, none) := by decide

/-- No two numbers have one text; the two zeros differ in their sign. -/
theorem toText_injective : Function.Injective toText := by
  intro a b same
  have reading := congrArg written same
  cases a with
  | finite s u hu =>
    rw [written_finite] at reading
    cases b with
    | finite t v hv =>
      rw [written_finite] at reading
      obtain ⟨rfl, ratio⟩ := Prod.mk.inj reading
      have closest := Digits.closest_of u hu
      rw [Option.some.inj ratio] at closest
      obtain rfl := closest.unique (Digits.closest_of v hv)
      rfl
    | infinite t => simp [written_infinite] at reading
    | nan => simp [written_nan] at reading
  | infinite s =>
    rw [written_infinite] at reading
    cases b with
    | finite t v hv => simp [written_finite] at reading
    | infinite t => cases s <;> cases t <;> simp [written_infinite] at reading ⊢
    | nan => cases s <;> simp [toText] at same
  | nan =>
    rw [written_nan] at reading
    cases b with
    | finite t v hv => simp [written_finite] at reading
    | infinite t => cases t <;> simp [toText] at same
    | nan => rfl

end Binary64

end DesignTokens
