import Mathlib.Data.List.Induction
import DesignTokens.ShortName

set_option autoImplicit false

namespace DesignTokens.Letters

def digit (c : Char) : Nat := alphabet.idxOf c

def Spelled (word : List Char) : Prop := ∀ c ∈ word, c ∈ alphabet

def rank (word : List Char) : Nat := word.foldl (fun n c => n * 52 + (digit c + 1)) 0

theorem length_alphabet : alphabet.length = 52 := rfl

theorem letter_eq (d : Nat) (inside : d < alphabet.length) : letter d = alphabet[d] := by
  rw [letter, List.getD_eq_getElem?_getD, List.getElem?_eq_getElem inside, Option.getD_some]

theorem digit_letter (d : Nat) (small : d < 52) : digit (letter d) = d := by
  have all : ∀ d : Fin 52, digit (letter d) = d := by decide
  exact all ⟨d, small⟩

theorem digit_lt (c : Char) (member : c ∈ alphabet) : digit c < 52 := by
  rw [← length_alphabet]
  exact List.idxOf_lt_length_of_mem member

theorem letter_mem (d : Nat) (small : d < 52) : letter d ∈ alphabet := by
  rw [← length_alphabet] at small
  rw [letter_eq d small]
  exact List.getElem_mem small

theorem letter_digit (c : Char) (member : c ∈ alphabet) : letter (digit c) = c := by
  have inside : digit c < alphabet.length := List.idxOf_lt_length_of_mem member
  rw [letter_eq _ inside]
  exact List.getElem_idxOf inside

theorem rank_concat (word : List Char) (c : Char) :
    rank (word ++ [c]) = rank word * 52 + (digit c + 1) := by
  simp [rank]

theorem rank_ofNat (n : Nat) : rank (ofNat n) = n + 1 := by
  fun_induction ofNat n with
  | case1 n small => simp [rank, digit_letter n small]
  | case2 n large ih =>
    rw [rank_concat, ih, digit_letter _ (by omega)]
    omega

theorem spelled_ofNat (n : Nat) : Spelled (ofNat n) := by
  fun_induction ofNat n with
  | case1 n small =>
    intro c member
    rw [List.mem_singleton.mp member]
    exact letter_mem n small
  | case2 n large ih =>
    intro c member
    rcases List.mem_append.mp member with earlier | last
    · exact ih c earlier
    · rw [List.mem_singleton.mp last]
      exact letter_mem _ (by omega)

def word : Nat → List Char
  | 0 => []
  | n + 1 => ofNat n

@[simp]
theorem rank_word (n : Nat) : rank (word n) = n := by
  cases n with
  | zero => rfl
  | succ n => exact rank_ofNat n

theorem spelled_word (n : Nat) : Spelled (word n) := by
  cases n with
  | zero => simp [Spelled, word]
  | succ n => exact spelled_ofNat n

theorem word_injective (m n : Nat) (same : word m = word n) : m = n := by
  rw [← rank_word m, ← rank_word n, same]

theorem word_next (n d : Nat) (small : d < 52) : word (n * 52 + (d + 1)) = word n ++ [letter d] := by
  cases n with
  | zero =>
    change ofNat (0 * 52 + d) = [] ++ [letter d]
    rw [Nat.zero_mul, Nat.zero_add, ofNat, if_pos small, List.nil_append]
  | succ n =>
    change ofNat ((n + 1) * 52 + d) = ofNat n ++ [letter d]
    have quotient : ((n + 1) * 52 + d) / 52 - 1 = n := by omega
    have remainder : ((n + 1) * 52 + d) % 52 = d := by omega
    rw [ofNat, if_neg (by omega), quotient, remainder]

theorem word_rank (w : List Char) (spelled : Spelled w) : word (rank w) = w := by
  induction w using List.reverseRecOn with
  | nil => rfl
  | append_singleton w c ih =>
    have member : c ∈ alphabet := spelled c (by simp)
    have shorter := ih fun other earlier => spelled other (by simp [earlier])
    rw [rank_concat, word_next _ _ (digit_lt c member), shorter, letter_digit c member]

theorem rank_le_append (u v : List Char) : rank u ≤ rank (u ++ v) := by
  induction v using List.reverseRecOn with
  | nil => simp
  | append_singleton v c ih =>
    rw [← List.append_assoc, rank_concat]
    omega

end DesignTokens.Letters
