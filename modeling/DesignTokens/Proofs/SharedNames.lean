import DesignTokens.Proofs.LetterCase
import DesignTokens.Proofs.LetterOrder
import DesignTokens.Proofs.ShortNames

set_option autoImplicit false

namespace DesignTokens

namespace Letters

theorem mem_alphabet_iff (c : Char) : c ∈ alphabet ↔ c.isAlpha = true := by
  constructor
  · have all : alphabet.all Char.isAlpha = true := by decide
    exact List.all_eq_true.mp all c
  · intro letter
    have all : (List.range 128).all (fun code =>
        !(Char.ofNat code).isAlpha || alphabet.contains (Char.ofNat code)) = true := by decide
    have small : c.toNat < 128 := by
      have range := (Text.isAlpha_iff c).mp letter
      omega
    have member := List.all_eq_true.mp all c.toNat (List.mem_range.mpr small)
    rw [Char.ofNat_toNat, letter, Bool.not_true, Bool.false_or] at member
    exact List.contains_iff_mem.mp member

def Only (text : String) : Prop := ∀ c ∈ text.toList, c.isAlpha = true

instance (text : String) : Decidable (Only text) :=
  decidable_of_iff (text.toList.all Char.isAlpha = true) List.all_eq_true

theorem only_iff (text : String) : Only text ↔ Spelled text.toList := by
  simp only [Only, Spelled, mem_alphabet_iff]

end Letters

namespace ShortName

open Letters

/-- One of two scopes is the other with the letters `w` after it. -/
def DifferBy (s t w : String) : Prop := w ≠ "" ∧ Only w ∧ (t = s ++ w ∨ s = t ++ w)

theorem goesOn_iff (s t w : String) : GoesOn s t w.toList ↔ w ≠ "" ∧ Only w ∧ t = s ++ w := by
  rw [GoesOn, only_iff, ← String.toList_inj, String.toList_append, ne_eq, String.toList_eq_nil_iff]

theorem differBy_iff (s t w : String) :
    DifferBy s t w ↔ GoesOn s t w.toList ∨ GoesOn t s w.toList := by
  rw [DifferBy, goesOn_iff, goesOn_iff]
  tauto

theorem shared_below_iff (s t : String) (different : s ≠ t) (limit : Nat) :
    (∃ i < limit, ∃ j < limit, ofCount (some s) i = ofCount (some t) j) ↔
      ∃ w, DifferBy s t w ∧ 10 * rank w.toList < limit := by
  simp only [differBy_iff]
  rw [shared_iff s t different]
  constructor
  · rintro (⟨w, goesOn, far, _⟩ | ⟨w, goesOn, far, _⟩)
    · exact ⟨String.ofList w, .inl (by simpa using goesOn), by simpa using far⟩
    · exact ⟨String.ofList w, .inr (by simpa using goesOn), by simpa using far⟩
  · rintro ⟨w, goesOn | goesOn, far⟩
    · exact .inl ⟨w.toList, goesOn, far, Nat.zero_lt_of_lt far⟩
    · exact .inr ⟨w.toList, goesOn, far, Nat.zero_lt_of_lt far⟩

theorem unscoped_eq_iff (s : String) (i j : Nat) :
    ofCount none i = ofCount (some s) j ↔
      word (i / 10 + 1) = s.toList ++ word (j / 10) ∧ i % 10 = j % 10 :=
  ofCount_eq_iff none (some s) i j

theorem only_of_unscoped_eq {s : String} {i j : Nat} (same : ofCount none i = ofCount (some s) j) :
    Only s := by
  obtain ⟨words, _⟩ := (unscoped_eq_iff s i j).mp same
  refine (only_iff s).mpr fun c member => spelled_word (i / 10 + 1) c ?_
  rw [words]
  exact List.mem_append_left _ member

theorem unscoped_below_empty_iff (limit : Nat) :
    (∃ i < limit, ∃ j < limit, ofCount none i = ofCount (some "") j) ↔ 10 < limit := by
  constructor
  · rintro ⟨i, _, j, hj, same⟩
    obtain ⟨words, _⟩ := (unscoped_eq_iff "" i j).mp same
    have level : i / 10 + 1 = j / 10 := word_injective _ _ (by simpa using words)
    omega
  · intro far
    exact ⟨0, by omega, 10, far, rfl⟩

-- A scope of letters is itself a word, one that is counted up to without a scope.
theorem unscoped_below_written_iff {s : String} (written : s ≠ "") (limit : Nat) :
    (∃ i < limit, ∃ j < limit, ofCount none i = ofCount (some s) j) ↔
      Only s ∧ 10 * (rank s.toList - 1) < limit := by
  constructor
  · rintro ⟨i, hi, j, _, same⟩
    obtain ⟨words, _⟩ := (unscoped_eq_iff s i j).mp same
    have bound : rank s.toList ≤ i / 10 + 1 := by
      rw [← rank_word (i / 10 + 1), words]
      exact rank_le_append _ _
    exact ⟨only_of_unscoped_eq same, by omega⟩
  · rintro ⟨only, far⟩
    have isWord : IsWord s.toList := ⟨by simpa using written, (only_iff s).mp only⟩
    obtain ⟨n, counted⟩ := exists_ofNat isWord
    rw [← counted, rank_ofNat] at far
    have tens : 10 * n / 10 = n := by omega
    refine ⟨10 * n, by omega, 0, by omega, (unscoped_eq_iff s _ _).mpr ⟨?_, by omega⟩⟩
    rw [tens, ← counted]
    exact (List.append_nil _).symm

theorem unscoped_below_iff (s : String) (limit : Nat) :
    (∃ i < limit, ∃ j < limit, ofCount none i = ofCount (some s) j) ↔
      Only s ∧ (if s = "" then 10 else 10 * (rank s.toList - 1)) < limit := by
  split
  next nothing =>
    subst nothing
    have only : Only "" := by decide
    rw [unscoped_below_empty_iff, and_iff_right only]
  next written => exact unscoped_below_written_iff written limit

theorem exists_iff_below (P : Nat → Nat → Prop) :
    (∃ i j, P i j) ↔ ∃ limit, ∃ i < limit, ∃ j < limit, P i j := by
  constructor
  · rintro ⟨i, j, holds⟩
    exact ⟨i + j + 1, i, by omega, j, by omega, holds⟩
  · rintro ⟨_, i, _, j, _, holds⟩
    exact ⟨i, j, holds⟩

/--
Two scopes have a name in common exactly where one is the other with letters after it, and a scope has one in
common with the names without a scope exactly where it is of letters only. Counters that are kept below a limit
come to such a name exactly if the word is counted before the limit, with ten names to a word.
-/
theorem shared_iff_letters :
    (∀ s t : String, s ≠ t →
      ((∃ i j, ofCount (some s) i = ofCount (some t) j) ↔ ∃ w, DifferBy s t w) ∧
      ∀ limit, (∃ i < limit, ∃ j < limit, ofCount (some s) i = ofCount (some t) j) ↔
        ∃ w, DifferBy s t w ∧ 10 * rank w.toList < limit) ∧
    ∀ s : String,
      ((∃ i j, ofCount none i = ofCount (some s) j) ↔ Only s) ∧
      ∀ limit, (∃ i < limit, ∃ j < limit, ofCount none i = ofCount (some s) j) ↔
        Only s ∧ (if s = "" then 10 else 10 * (rank s.toList - 1)) < limit := by
  refine ⟨fun s t different => ⟨?_, shared_below_iff s t different⟩,
    fun s => ⟨?_, unscoped_below_iff s⟩⟩
  · rw [exists_iff_below]
    simp only [shared_below_iff s t different]
    constructor
    · rintro ⟨_, w, differ, _⟩
      exact ⟨w, differ⟩
    · rintro ⟨w, differ⟩
      exact ⟨10 * rank w.toList + 1, w, differ, Nat.lt_succ_self _⟩
  · rw [exists_iff_below]
    simp only [unscoped_below_iff]
    constructor
    · rintro ⟨_, only, _⟩
      exact only
    · intro only
      exact ⟨_, only, Nat.lt_succ_self _⟩

-- A dash in a scope keeps it apart from the names without one, letters do not.
theorem shared_iff_letters_sample :
    "d" ≠ "dark" ∧ (∃ i j, ofCount (some "d") i = ofCount (some "dark") j) ∧
      (∃ i j, ofCount none i = ofCount (some "dark") j) ∧
      ¬ ∃ i j, ofCount none i = ofCount (some "dark-2") j := by
  obtain ⟨twoScopes, oneScope⟩ := shared_iff_letters
  have different : "d" ≠ "dark" := by decide
  have differ : DifferBy "d" "dark" "ark" := ⟨by decide, by decide, .inl (by decide)⟩
  refine ⟨different, (twoScopes "d" "dark" different).1.mpr ⟨"ark", differ⟩,
    (oneScope "dark").1.mpr (by decide), ?_⟩
  rw [(oneScope "dark-2").1]
  decide

end ShortName

end DesignTokens
