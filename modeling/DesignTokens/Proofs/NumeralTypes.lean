import DesignTokens.Css.ValueType
import DesignTokens.Proofs.DecimalTexts

set_option autoImplicit false

namespace DesignTokens

namespace ValueType

open Text Decimal

structure Plain (text : List Char) : Prop where
  hasDigit : ∃ c ∈ text, c.isDigit = true
  chars : ∀ c ∈ text, c.isDigit = true ∨ c = '.'
  points : text.count '.' ≤ 1

theorem count_point_of_digits {text : List Char} (digits : AreDigits text) : text.count '.' = 0 := by
  apply List.count_eq_zero.mpr
  intro point
  exact absurd (digits '.' point) (by decide)

theorem exists_digit {text : List Char} (digits : AreDigits text) (written : text ≠ []) :
    ∃ c ∈ text, c.isDigit = true := by
  obtain ⟨c, rest, rfl⟩ := List.exists_cons_of_ne_nil written
  exact ⟨c, List.mem_cons_self, digits c List.mem_cons_self⟩

theorem plain_of_digits {text : List Char} (digits : AreDigits text) (written : text ≠ []) : Plain text :=
  ⟨exists_digit digits written, fun c member => .inl (digits c member),
    (count_point_of_digits digits).trans_le (Nat.zero_le 1)⟩

theorem plain_of_point {whole places : List Char} (digits : AreDigits (whole ++ places))
    (written : whole ++ places ≠ []) : Plain (whole ++ '.' :: places) := by
  obtain ⟨c, member, digit⟩ := exists_digit digits written
  refine ⟨⟨c, ?_, digit⟩, fun d inside => ?_, ?_⟩
  · rw [List.mem_append] at member
    rw [List.mem_append, List.mem_cons]
    exact member.imp_right .inr
  · rw [List.mem_append, List.mem_cons] at inside
    rcases inside with first | point | second
    · exact .inl (digits d (List.mem_append_left _ first))
    · exact .inr point
    · exact .inl (digits d (List.mem_append_right _ second))
  · have around := count_point_of_digits digits
    rw [List.count_append] at around
    rw [List.count_append, List.count_cons_self]
    omega

theorem plain_toText (d : Digits) : Plain d.toText.toList := by
  rcases Int.lt_or_le d.exponent 0 with fraction | whole
  · obtain ⟨whole, places, text, written, digits, _⟩ := d.toText_point fraction
    rw [text]
    exact plain_of_point digits (by simp [written])
  · rw [d.toText_whole whole]
    exact plain_of_digits ((areDigits_toDigits d.digits).append (areDigits_zeros d.exponent.natAbs))
      (by simp [Nat.toDigits_ne_nil])

def signText (negative : Bool) : List Char := if negative then ['-'] else []

def IsSign (text : List Char) : Prop := text = [] ∨ text = ['-'] ∨ text = ['+']

def Signed (body : List Char → Prop) (text : List Char) : Prop :=
  ∃ sign rest, IsSign sign ∧ body rest ∧ text = sign ++ rest

theorem exists_sign (text : List Char) : ∃ sign, IsSign sign ∧ text = sign ++ unsigned text := by
  unfold unsigned
  split
  · exact ⟨['-'], .inr (.inl rfl), rfl⟩
  · exact ⟨['+'], .inr (.inr rfl), rfl⟩
  · exact ⟨[], .inl rfl, rfl⟩

theorem unsigned_append {sign rest : List Char} (isSign : IsSign sign)
    (start : ∀ c ∈ rest.head?, c.isDigit = true ∨ c = '.') : unsigned (sign ++ rest) = rest := by
  rcases isSign with rfl | rfl | rfl
  · rw [List.nil_append]
    unfold unsigned
    split
    · exact absurd (start '-' rfl) (by decide)
    · exact absurd (start '+' rfl) (by decide)
    · rfl
  · rfl
  · rfl

theorem signed_iff {body : List Char → Prop}
    (start : ∀ rest, body rest → ∀ c ∈ rest.head?, c.isDigit = true ∨ c = '.') (text : List Char) :
    Signed body text ↔ body (unsigned text) := by
  constructor
  · rintro ⟨sign, rest, isSign, held, rfl⟩
    rwa [unsigned_append isSign (start rest held)]
  · intro held
    obtain ⟨sign, isSign, split⟩ := exists_sign text
    exact ⟨sign, unsigned text, isSign, held, split⟩

theorem signed_plain_iff (text : List Char) : Signed Plain text ↔ Plain (unsigned text) :=
  signed_iff (fun _ plain c first => plain.chars c (List.mem_of_mem_head? first)) text

theorem isNumber_iff (text : List Char) : isNumber text = true ↔ Signed Plain text := by
  rw [signed_plain_iff, isNumber]
  simp only [Bool.and_eq_true, List.any_eq_true, List.all_eq_true, decide_eq_true_eq, Bool.or_eq_true, beq_iff_eq]
  constructor
  · rintro ⟨⟨digit, chars⟩, points⟩
    exact ⟨digit, chars, points⟩
  · rintro ⟨digit, chars, points⟩
    exact ⟨⟨digit, chars⟩, points⟩

theorem isNumeral_of_signed {number : List Char} (signed : Signed Plain number) :
    number ≠ [] ∧ ∀ c ∈ number, isNumeral c = true := by
  obtain ⟨sign, body, isSign, plain, rfl⟩ := signed
  obtain ⟨c, member, _⟩ := plain.hasDigit
  refine ⟨List.ne_nil_of_mem (List.mem_append_right sign member), fun d inside => ?_⟩
  rcases List.mem_append.mp inside with front | behind
  · rcases isSign with rfl | rfl | rfl
    · cases front
    · obtain rfl := List.mem_singleton.mp front
      decide
    · obtain rfl := List.mem_singleton.mp front
      decide
  · rcases plain.chars d behind with digit | rfl
    · simp [isNumeral, digit]
    · decide

theorem signed_of_plain {text : List Char} (plain : Plain text) (negative : Bool) :
    Signed Plain (signText negative ++ text) := by
  refine ⟨signText negative, text, ?_, plain, rfl⟩
  cases negative with
  | true => exact .inr (.inl rfl)
  | false => exact .inl rfl

theorem range_of_isNumeral {c : Char} (numeral : isNumeral c = true) : 43 ≤ c.toNat ∧ c.toNat ≤ 57 := by
  simp only [isNumeral, Bool.or_eq_true, beq_iff_eq] at numeral
  rcases numeral with ((digit | rfl) | rfl) | rfl
  · have range : 48 ≤ c.toNat ∧ c.toNat ≤ 57 := Char.isDigit_iff_toNat.mp digit
    omega
  all_goals decide

theorem isBlank_of_isNumeral {c : Char} (numeral : isNumeral c = true) : isBlank c = false := by
  obtain ⟨least, most⟩ := range_of_isNumeral numeral
  exact isBlank_of_toNat (by omega) (by omega)

theorem toLower_of_isNumeral {c : Char} (numeral : isNumeral c = true) : c.toLower = c := by
  obtain ⟨_, most⟩ := range_of_isNumeral numeral
  rcases toLower_cases c with ⟨least, _⟩ | same
  · omega
  · exact same

theorem isLower_of_isNumeral {c : Char} (numeral : isNumeral c = true) : c.isLower = false := by
  obtain ⟨_, most⟩ := range_of_isNumeral numeral
  rw [← Bool.not_eq_true, isLower_iff]
  omega

end ValueType

end DesignTokens
