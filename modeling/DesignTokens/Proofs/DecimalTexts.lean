import Mathlib.Algebra.Order.Field.Rat
import Mathlib.Data.List.TakeWhile
import Mathlib.Tactic.FieldSimp
import Mathlib.Tactic.NormNum
import Mathlib.Tactic.Ring
import DesignTokens.Number.Decimal
import DesignTokens.Number.Writing
import DesignTokens.Proofs.LetterCase

set_option autoImplicit false

namespace DesignTokens

namespace Decimal

theorem value_eq (digits : List Char) : value digits = Nat.ofDigitChars 10 digits 0 :=
  Nat.ofDigitChars_eq_foldl.symm

theorem value_toDigits (n : Nat) : value (Nat.toDigits 10 n) = n := by
  rw [value_eq, Nat.ofDigitChars_ten_toDigits]

theorem value_append_zeros (digits : List Char) (count : Nat) :
    value (digits ++ List.replicate count '0') = value digits * 10 ^ count := by
  rw [value_eq, value_eq, Nat.ofDigitChars_append, Nat.ofDigitChars_replicate_zero, Nat.mul_comm]

theorem value_zeros_append (digits : List Char) (count : Nat) :
    value (List.replicate count '0' ++ digits) = value digits := by
  rw [value_eq, value_eq, Nat.ofDigitChars_append, Nat.ofDigitChars_replicate_zero, Nat.mul_zero]

def AreDigits (text : List Char) : Prop := ∀ c ∈ text, c.isDigit = true

theorem areDigits_toDigits (n : Nat) : AreDigits (Nat.toDigits 10 n) := fun _ member =>
  Nat.isDigit_of_mem_toDigits (by decide) (by decide) member

theorem areDigits_zeros (count : Nat) : AreDigits (List.replicate count '0') := by
  intro c member
  obtain rfl := List.eq_of_mem_replicate member
  decide

theorem AreDigits.append {text more : List Char} (digits : AreDigits text) (others : AreDigits more) :
    AreDigits (text ++ more) := by
  intro c member
  rcases List.mem_append.mp member with first | second
  · exact digits c first
  · exact others c second

theorem digitRun_append (digits rest : List Char) (run : AreDigits digits)
    (stops : ∀ c ∈ rest.head?, c.isDigit = false) : digitRun (digits ++ rest) = (digits, rest) := by
  unfold digitRun
  rw [List.takeWhile_append_of_pos run, List.dropWhile_append_of_pos run]
  cases rest with
  | nil => simp
  | cons c rest =>
    have stop : c.isDigit = false := stops c (by simp)
    simp [stop]

theorem mantissa?_whole (whole : List Char) (digits : AreDigits whole) (written : whole ≠ []) :
    mantissa? whole = some ⟨whole, [], []⟩ := by
  have run := digitRun_append whole [] digits (by simp)
  rw [List.append_nil] at run
  simp [mantissa?, run, written]

theorem mantissa?_point (whole places : List Char) (digits : AreDigits (whole ++ places))
    (written : whole ++ places ≠ []) :
    mantissa? (whole ++ '.' :: places) = some ⟨whole, places, []⟩ := by
  have first := digitRun_append whole ('.' :: places)
    (fun c member => digits c (List.mem_append_left _ member)) (by simp)
  have second := digitRun_append places []
    (fun c member => digits c (List.mem_append_right _ member)) (by simp)
  rw [List.append_nil] at second
  have nonempty : (whole.isEmpty && places.isEmpty) = false := by
    cases whole <;> cases places <;> simp at written ⊢
  simp [mantissa?, first, second, nonempty]

theorem digitRun_spec (text : List Char) :
    AreDigits (digitRun text).1 ∧ text = (digitRun text).1 ++ (digitRun text).2 :=
  ⟨fun _ => List.mem_takeWhile_imp, List.takeWhile_append_dropWhile.symm⟩

theorem text_of_mantissa? {text : List Char} {m : Mantissa} (read : mantissa? text = some m) :
    AreDigits (m.whole ++ m.places) ∧ m.whole ++ m.places ≠ [] ∧
      (text = m.whole ++ m.places ++ m.rest ∨ text = m.whole ++ '.' :: (m.places ++ m.rest)) := by
  obtain ⟨digits, start⟩ := digitRun_spec text
  simp only [mantissa?] at read
  generalize (digitRun text).1 = whole at *
  generalize (digitRun text).2 = behind at *
  split at read
  next after =>
    obtain ⟨more, second⟩ := digitRun_spec after
    obtain ⟨written, found⟩ := Option.ite_none_left_eq_some.mp read
    obtain rfl := Option.some.inj found
    exact ⟨digits.append more, fun nothing => written (by simpa using nothing),
      .inr (by rw [start, ← second])⟩
  next =>
    obtain ⟨written, found⟩ := Option.ite_none_left_eq_some.mp read
    obtain rfl := Option.some.inj found
    exact ⟨by simpa using digits, fun nothing => written (by simpa using nothing),
      .inl (by simpa using start)⟩

theorem unsigned?_eq_some_iff (text : List Char) (x : Binary64) :
    unsigned? text = some x ↔
      ∃ m, mantissa? text = some m ∧ m.rest = [] ∧ m.toBinary64 false 0 = x := by
  unfold unsigned?
  cases mantissa? text with
  | none => simp
  | some m => simp

theorem isBlank_of_isDigit {c : Char} (digit : c.isDigit = true) : isBlank c = false := by
  have range : 48 ≤ c.toNat ∧ c.toNat ≤ 57 := Char.isDigit_iff_toNat.mp digit
  exact isBlank_of_toNat (by omega) (by omega)

theorem solid_of_unsigned? {text : List Char} {x : Binary64} (read : unsigned? text = some x) :
    text ≠ [] ∧ ∀ c ∈ text, isBlank c = false := by
  obtain ⟨m, mantissa, rest, _⟩ := (unsigned?_eq_some_iff text x).mp read
  obtain ⟨digits, written, whole⟩ := text_of_mantissa? mantissa
  rw [rest, List.append_nil, List.append_nil] at whole
  constructor
  · rintro rfl
    rcases whole with whole | whole
    · exact written whole.symm
    · simp at whole
  · intro c member
    rcases whole with rfl | rfl
    · exact isBlank_of_isDigit (digits c member)
    · rw [List.mem_append, List.mem_cons] at member
      rcases member with first | rfl | second
      · exact isBlank_of_isDigit (digits c (List.mem_append_left _ first))
      · decide
      · exact isBlank_of_isDigit (digits c (List.mem_append_right _ second))

def Mantissa.ratio (m : Mantissa) : ℚ := value (m.whole ++ m.places) / 10 ^ m.places.length

end Decimal

namespace Digits

open Decimal

def ratio (d : Digits) : ℚ := d.digits * 10 ^ d.exponent

theorem toText_whole (d : Digits) (whole : 0 ≤ d.exponent) :
    d.toText.toList = Nat.toDigits 10 d.digits ++ List.replicate d.exponent.natAbs '0' := by
  unfold toText
  rw [if_neg (by omega), String.toList_ofList]

theorem toText_point (d : Digits) (fraction : d.exponent < 0) :
    ∃ whole places, d.toText.toList = whole ++ '.' :: places ∧ whole ≠ [] ∧
      AreDigits (whole ++ places) ∧ places.length = d.exponent.natAbs ∧
      value (whole ++ places) = d.digits := by
  simp only [toText, if_pos fraction, String.toList_ofList]
  have padded := areDigits_zeros (d.exponent.natAbs + 1 - (Nat.toDigits 10 d.digits).length)
  have digits := padded.append (areDigits_toDigits d.digits)
  have amount := value_zeros_append (Nat.toDigits 10 d.digits)
    (d.exponent.natAbs + 1 - (Nat.toDigits 10 d.digits).length)
  have long : d.exponent.natAbs < (List.replicate (d.exponent.natAbs + 1 -
      (Nat.toDigits 10 d.digits).length) '0' ++ Nat.toDigits 10 d.digits).length := by
    rw [List.length_append, List.length_replicate]
    omega
  rw [value_toDigits] at amount
  generalize List.replicate _ '0' ++ Nat.toDigits 10 d.digits = padded at digits amount long
  refine ⟨padded.take (padded.length - d.exponent.natAbs),
    padded.drop (padded.length - d.exponent.natAbs), rfl, ?_, ?_, ?_, ?_⟩
  · intro nothing
    have length := congrArg List.length nothing
    rw [List.length_take, List.length_nil] at length
    omega
  · rwa [List.take_append_drop]
  · rw [List.length_drop]
    omega
  · rwa [List.take_append_drop]

theorem toText_places (digits : ℕ) {places : ℕ} (positive : 0 < places) :
    ∃ whole behind, (toText ⟨digits, -places⟩).toList = whole ++ '.' :: behind ∧ whole ≠ [] ∧
      AreDigits (whole ++ behind) ∧ behind.length = places ∧ value (whole ++ behind) = digits := by
  simpa using toText_point ⟨digits, -places⟩ (by simpa using positive)

theorem mantissa?_toText (d : Digits) :
    ∃ m, mantissa? d.toText.toList = some m ∧ m.rest = [] ∧ m.ratio = d.ratio := by
  rcases Int.lt_or_le d.exponent 0 with fraction | whole
  · obtain ⟨whole, places, text, written, digits, length, amount⟩ := toText_point d fraction
    refine ⟨⟨whole, places, []⟩, ?_, rfl, ?_⟩
    · rw [text]
      exact mantissa?_point whole places digits (by simp [written])
    · have exponent : d.exponent = -(d.exponent.natAbs : ℤ) := by omega
      rw [Mantissa.ratio, ratio, amount, length, exponent, zpow_neg, zpow_natCast, Int.natAbs_neg,
        Int.natAbs_natCast, div_eq_mul_inv]
  · refine ⟨⟨d.toText.toList, [], []⟩, ?_, rfl, ?_⟩
    · apply mantissa?_whole
      · rw [toText_whole d whole]
        exact (areDigits_toDigits _).append (areDigits_zeros _)
      · rw [toText_whole d whole]
        simp [Nat.toDigits_ne_nil]
    · have exponent : d.exponent = (d.exponent.natAbs : ℤ) := by omega
      rw [Mantissa.ratio, ratio, List.append_nil, toText_whole d whole, value_append_zeros,
        value_toDigits, exponent, zpow_natCast, Int.natAbs_natCast]
      simp

end Digits

namespace Decimal

theorem unsigned?_whole {whole : List Char} (digits : AreDigits whole) (written : whole ≠ []) :
    unsigned? whole = some (.ofDecimal false (value whole) 0) := by
  refine (unsigned?_eq_some_iff _ _).mpr ⟨_, mantissa?_whole whole digits written, rfl, ?_⟩
  simp [Mantissa.toBinary64]

theorem unsigned?_point {whole places : List Char} (digits : AreDigits (whole ++ places))
    (written : whole ≠ []) :
    unsigned? (whole ++ '.' :: places) =
      some (.ofDecimal false (value (whole ++ places)) (-places.length)) := by
  refine (unsigned?_eq_some_iff _ _).mpr
    ⟨_, mantissa?_point whole places digits (by simp [written]), rfl, ?_⟩
  simp [Mantissa.toBinary64]

theorem unsigned?_toText (d : Digits) (fraction : d.exponent < 0) :
    unsigned? d.toText.toList = some (.ofDecimal false d.digits d.exponent) := by
  obtain ⟨whole, places, text, written, digits, length, amount⟩ := d.toText_point fraction
  rw [text, unsigned?_point digits written, amount, length]
  congr 2
  omega

theorem toList_toString (n : ℕ) : (toString (n : ℤ)).toList = Nat.toDigits 10 n := by
  change (Nat.repr n).toList = _
  rw [Nat.repr, String.toList_ofList]

theorem unsigned?_toString (n : ℕ) :
    unsigned? (toString (n : ℤ)).toList = some (.ofDecimal false n 0) := by
  rw [toList_toString, unsigned?_whole (areDigits_toDigits n) Nat.toDigits_ne_nil, value_toDigits]

theorem dropWhile_of_isDigit {c : Char} (rest : List Char) (digit : c.isDigit = true) :
    (c :: rest).dropWhile (· == '.') = c :: rest := by
  have point : c ≠ '.' := by
    rintro rfl
    exact absurd digit (by decide)
  simp [point]

theorem toList_dropTrailingZeros {text : String} {whole places : List Char}
    (split : text.toList = whole ++ '.' :: places) (digits : AreDigits (whole ++ places))
    (written : whole ≠ []) :
    ∃ kept zeros, places = kept ++ List.replicate zeros '0' ∧
      (Binary64.dropTrailingZeros text).toList = if kept = [] then whole else whole ++ '.' :: kept := by
  have digitsWhole : AreDigits whole := fun c member => digits c (List.mem_append_left _ member)
  have pointed : text.toList.contains '.' = true := by simp [split]
  have reversed : text.toList.reverse = places.reverse ++ '.' :: whole.reverse := by simp [split]
  have zeros : places.reverse.takeWhile (· == '0') =
      List.replicate (places.reverse.takeWhile (· == '0')).length '0' :=
    List.eq_replicate_of_mem fun c member => by simpa using List.mem_takeWhile_imp member
  have parts : places.reverse = List.replicate (places.reverse.takeWhile (· == '0')).length '0' ++
      places.reverse.dropWhile (· == '0') := by
    rw [← zeros, List.takeWhile_append_dropWhile]
  refine ⟨(places.reverse.dropWhile (· == '0')).reverse, (places.reverse.takeWhile (· == '0')).length,
    ?_, ?_⟩
  · simpa using congrArg List.reverse parts
  simp only [Binary64.dropTrailingZeros, pointed, if_true, String.toList_ofList, reversed,
    List.dropWhile_append]
  cases kept : places.reverse.dropWhile (· == '0') with
  | nil =>
    -- The point goes, and the last digit before it stops.
    obtain ⟨c, rest, last⟩ := List.exists_cons_of_ne_nil (mt List.reverse_eq_nil_iff.mp written)
    have digit : c.isDigit = true := digitsWhole c (List.mem_reverse.mp (by simp [last]))
    have point : ('.' :: whole.reverse).dropWhile (· == '0') = '.' :: whole.reverse := rfl
    have after : ('.' :: whole.reverse).dropWhile (· == '.') = whole.reverse := by
      rw [last]
      exact dropWhile_of_isDigit rest digit
    simp only [List.isEmpty_nil, if_true, point, after, List.reverse_reverse, List.reverse_nil]
  | cons c rest =>
    have member : c ∈ places :=
      List.mem_reverse.mp ((List.dropWhile_sublist _).mem (kept ▸ List.mem_cons_self))
    have digit : c.isDigit = true := digits c (List.mem_append_right _ member)
    have stops := dropWhile_of_isDigit (rest ++ '.' :: whole.reverse) digit
    simp [stops]

theorem exists_unsigned?_dropTrailingZeros {text : String} {whole places : List Char}
    (split : text.toList = whole ++ '.' :: places) (digits : AreDigits (whole ++ places))
    (written : whole ≠ []) :
    ∃ kept zeros, places = kept ++ List.replicate zeros '0' ∧
      unsigned? (Binary64.dropTrailingZeros text).toList =
        some (.ofDecimal false (value (whole ++ kept)) (-kept.length)) := by
  obtain ⟨kept, zeros, rfl, trimmed⟩ := toList_dropTrailingZeros split digits written
  have left : AreDigits (whole ++ kept) := fun c member =>
    digits c (by rw [← List.append_assoc]; exact List.mem_append_left _ member)
  refine ⟨kept, zeros, rfl, ?_⟩
  rw [trimmed]
  split
  next nothing =>
    subst nothing
    simpa using unsigned?_whole left (by simpa using written)
  next => exact unsigned?_point left written

end Decimal

end DesignTokens
