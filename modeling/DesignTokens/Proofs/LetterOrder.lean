import Mathlib.Data.List.Shortlex
import Mathlib.Data.Set.Function
import DesignTokens.Proofs.LetterWords

set_option autoImplicit false

namespace DesignTokens.Letters

def Precedes : List Char → List Char → Prop := List.Shortlex fun c d => digit c < digit d

def IsWord (word : List Char) : Prop := word ≠ [] ∧ Spelled word

theorem spelled_cons_iff (c : Char) (word : List Char) :
    Spelled (c :: word) ↔ c ∈ alphabet ∧ Spelled word := by
  simp [Spelled]

theorem foldl_eq_rank (count : Nat) (word : List Char) :
    word.foldl (fun n c => n * 52 + (digit c + 1)) count = count * 52 ^ word.length + rank word := by
  induction word using List.reverseRecOn with
  | nil => simp [rank]
  | append_singleton word c ih =>
    rw [List.foldl_append, ih, rank_concat, List.length_append, Nat.pow_add]
    simp only [List.foldl_cons, List.foldl_nil, List.length_singleton, Nat.pow_one]
    rw [Nat.add_mul, Nat.mul_assoc, Nat.add_assoc]

theorem rank_cons (c : Char) (word : List Char) :
    rank (c :: word) = (digit c + 1) * 52 ^ word.length + rank word := by
  rw [← foldl_eq_rank, rank, List.foldl_cons, Nat.zero_mul, Nat.zero_add]

theorem rank_bounds {word : List Char} (spelled : Spelled word) :
    52 ^ word.length ≤ 51 * rank word + 1 ∧ 51 * rank word + 52 ≤ 52 * 52 ^ word.length := by
  induction word with
  | nil => exact ⟨le_rfl, le_rfl⟩
  | cons c word ih =>
    obtain ⟨member, rest⟩ := (spelled_cons_iff c word).mp spelled
    obtain ⟨least, most⟩ := ih rest
    have first : 1 * 52 ^ word.length ≤ (digit c + 1) * 52 ^ word.length :=
      Nat.mul_le_mul_right _ (Nat.le_add_left 1 _)
    have last : (digit c + 1) * 52 ^ word.length ≤ 52 * 52 ^ word.length :=
      Nat.mul_le_mul_right _ (digit_lt c member)
    rw [rank_cons, List.length_cons, Nat.pow_succ]
    omega

theorem rank_lt_of_length_lt {u v : List Char} (spelledU : Spelled u) (spelledV : Spelled v)
    (shorter : u.length < v.length) : rank u < rank v := by
  have power : 52 ^ (u.length + 1) ≤ 52 ^ v.length := Nat.pow_le_pow_right (by decide) shorter
  have most := (rank_bounds spelledU).2
  have least := (rank_bounds spelledV).1
  rw [Nat.pow_succ] at power
  omega

-- A greater first letter outweighs all that the letters after it can add.
theorem rank_lt_of_digit_lt {c d : Char} {u v : List Char} (spelledU : Spelled u)
    (spelledV : Spelled v) (same : u.length = v.length) (less : digit c < digit d) :
    rank (c :: u) < rank (d :: v) := by
  have letter : (digit c + 1 + 1) * 52 ^ v.length ≤ (digit d + 1) * 52 ^ v.length :=
    Nat.mul_le_mul_right _ (Nat.succ_le_succ less)
  have most := (rank_bounds spelledU).2
  have least := (rank_bounds spelledV).1
  rw [Nat.succ_mul] at letter
  rw [rank_cons, rank_cons, same]
  rw [same] at most
  omega

theorem lex_iff_rank_lt {u v : List Char} (spelledU : Spelled u) (spelledV : Spelled v)
    (same : u.length = v.length) :
    List.Lex (fun c d => digit c < digit d) u v ↔ rank u < rank v := by
  induction u generalizing v with
  | nil =>
    obtain rfl := List.length_eq_zero_iff.mp same.symm
    simp
  | cons c u ih =>
    obtain ⟨d, v, rfl⟩ := List.exists_cons_of_length_eq_add_one same.symm
    obtain ⟨memberC, restU⟩ := (spelled_cons_iff c u).mp spelledU
    obtain ⟨memberD, restV⟩ := (spelled_cons_iff d v).mp spelledV
    have lengths : u.length = v.length := Nat.succ.inj same
    rcases Nat.lt_trichotomy (digit c) (digit d) with less | equal | more
    · exact iff_of_true (.rel less) (rank_lt_of_digit_lt restU restV lengths less)
    · obtain rfl : c = d := by rw [← letter_digit c memberC, equal, letter_digit d memberD]
      have irreflexive : Std.Irrefl fun c d : Char => digit c < digit d := ⟨fun _ => Nat.lt_irrefl _⟩
      rw [List.lex_cons_iff, ih restU restV lengths, rank_cons, rank_cons, lengths,
        Nat.add_lt_add_iff_left]
    · have greater := rank_lt_of_digit_lt restV restU lengths.symm more
      refine iff_of_false (fun lex => ?_) (Nat.lt_asymm greater)
      cases lex with
      | rel less => omega
      | cons _ => omega

theorem precedes_iff {u v : List Char} (spelledU : Spelled u) (spelledV : Spelled v) :
    Precedes u v ↔ rank u < rank v := by
  rw [Precedes, List.shortlex_def]
  rcases Nat.lt_trichotomy u.length v.length with shorter | same | longer
  · exact iff_of_true (.inl shorter) (rank_lt_of_length_lt spelledU spelledV shorter)
  · rw [lex_iff_rank_lt spelledU spelledV same]
    omega
  · have greater := rank_lt_of_length_lt spelledV spelledU longer
    omega

theorem isWord_ofNat (n : Nat) : IsWord (ofNat n) := by
  refine ⟨?_, spelled_ofNat n⟩
  intro nothing
  have rank := rank_ofNat n
  rw [nothing] at rank
  cases rank

theorem ofNat_injective : Function.Injective ofNat := by
  intro i j same
  exact Nat.succ.inj (word_injective (i + 1) (j + 1) same)

theorem exists_ofNat {word : List Char} (isWord : IsWord word) : ∃ n, ofNat n = word := by
  obtain ⟨written, spelled⟩ := isWord
  have back := word_rank word spelled
  cases count : rank word with
  | zero =>
    rw [count] at back
    exact absurd back.symm written
  | succ n =>
    rw [count] at back
    exact ⟨n, back⟩

theorem precedes_ofNat_iff (i j : Nat) : Precedes (ofNat i) (ofNat j) ↔ i < j := by
  rw [precedes_iff (spelled_ofNat i) (spelled_ofNat j), rank_ofNat, rank_ofNat, Nat.add_lt_add_iff_right]

/--
Counting meets every word of letters exactly once, in order of length and then of the alphabet; up to any
limit it has met exactly the words before the one at the limit.
-/
theorem ofNat_enumerates :
    Set.BijOn ofNat Set.univ {word | IsWord word} ∧
      (∀ i j, i < j ↔ Precedes (ofNat i) (ofNat j)) ∧
      ∀ limit, Set.BijOn ofNat (Set.Iio limit) {word | IsWord word ∧ Precedes word (ofNat limit)} := by
  refine ⟨⟨fun n _ => isWord_ofNat n, ofNat_injective.injOn, fun word isWord => ?_⟩,
    fun i j => (precedes_ofNat_iff i j).symm,
    fun limit => ⟨fun n below => ?_, ofNat_injective.injOn, fun word before => ?_⟩⟩
  · obtain ⟨n, counted⟩ := exists_ofNat isWord
    exact ⟨n, Set.mem_univ n, counted⟩
  · exact ⟨isWord_ofNat n, (precedes_ofNat_iff n limit).mpr below⟩
  · obtain ⟨isWord, precedes⟩ := before
    obtain ⟨n, rfl⟩ := exists_ofNat isWord
    exact ⟨n, (precedes_ofNat_iff n limit).mp precedes, rfl⟩

end DesignTokens.Letters
