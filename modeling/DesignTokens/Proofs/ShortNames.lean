import DesignTokens.Proofs.LetterWords
import DesignTokens.ShortName

set_option autoImplicit false

namespace DesignTokens.ShortName

open Letters

def stem (scope : Option String) (tens : Nat) : List Char :=
  match scope with
  | none => word (tens + 1)
  | some scope => scope.toList ++ word tens

theorem digitChar_injective (a b : Nat) (ha : a < 10) (hb : b < 10)
    (same : Nat.digitChar a = Nat.digitChar b) : a = b := by
  have all : ∀ a b : Fin 10, Nat.digitChar a = Nat.digitChar b → a = b := by decide
  exact congrArg Fin.val (all ⟨a, ha⟩ ⟨b, hb⟩ same)

theorem toList_ofCount (scope : Option String) (count : Nat) :
    (ofCount scope count).toList = stem scope (count / 10) ++ [Nat.digitChar (count % 10)] := by
  have digit : Nat.toDigits 10 (count % 10) = [Nat.digitChar (count % 10)] :=
    Nat.toDigits_of_lt_base (Nat.mod_lt _ (by omega))
  unfold ofCount stem
  cases scope with
  | none => simp [digit, word]
  | some scope => cases count / 10 <;> simp [digit, word]

theorem ofCount_eq_iff (s t : Option String) (i j : Nat) :
    ofCount s i = ofCount t j ↔ stem s (i / 10) = stem t (j / 10) ∧ i % 10 = j % 10 := by
  rw [← String.toList_inj, toList_ofCount, toList_ofCount]
  constructor
  · intro same
    obtain ⟨stems, digits⟩ := List.append_inj' same rfl
    exact ⟨stems, digitChar_injective _ _ (by omega) (by omega) (by simpa using digits)⟩
  · rintro ⟨stems, digits⟩
    rw [stems, digits]

theorem stem_injective (scope : Option String) (a b : Nat) (same : stem scope a = stem scope b) :
    a = b := by
  cases scope with
  | none => exact Nat.succ.inj (word_injective _ _ same)
  | some scope => exact word_injective _ _ (List.append_cancel_left same)

theorem ofCount_injective (scope : Option String) (i j : Nat)
    (same : ofCount scope i = ofCount scope j) : i = j := by
  obtain ⟨stems, digits⟩ := (ofCount_eq_iff scope scope i j).mp same
  have tens := stem_injective scope _ _ stems
  omega

def GoesOn (s t : String) (w : List Char) : Prop :=
  w ≠ [] ∧ Spelled w ∧ t.toList = s.toList ++ w

theorem shared_of_goesOn (s t : String) (w : List Char) (goesOn : GoesOn s t w) (m n : Nat) :
    (∃ i < m, ∃ j < n, ofCount (some s) i = ofCount (some t) j) ↔ 10 * rank w < m ∧ 0 < n := by
  obtain ⟨_, spelled, longer⟩ := goesOn
  have stems (a b : Nat) : stem (some s) a = stem (some t) b ↔ word a = w ++ word b := by
    simp [stem, longer]
  constructor
  · rintro ⟨i, hi, j, hj, same⟩
    obtain ⟨sameStem, _⟩ := (ofCount_eq_iff _ _ i j).mp same
    have words := (stems _ _).mp sameStem
    have bound : rank w ≤ i / 10 := by
      rw [← rank_word (i / 10), words]
      exact rank_le_append w _
    omega
  · rintro ⟨hm, hn⟩
    refine ⟨10 * rank w, hm, 0, hn, (ofCount_eq_iff _ _ _ _).mpr ⟨?_, by omega⟩⟩
    have tens : 10 * rank w / 10 = rank w := by omega
    rw [stems, tens, word_rank w spelled]
    simp [word]

theorem goesOn_of_shared (s t : String) (different : s ≠ t) (i j : Nat)
    (same : ofCount (some s) i = ofCount (some t) j) :
    (∃ w, GoesOn s t w) ∨ ∃ w, GoesOn t s w := by
  obtain ⟨stems, _⟩ := (ofCount_eq_iff _ _ i j).mp same
  have unequal : s.toList ≠ t.toList := fun equal => different (String.toList_inj.mp equal)
  have rest (u v w : List Char) (a b : Nat) (apart : u ≠ v) (longer : v = u ++ w)
      (words : word a = w ++ word b) : w ≠ [] ∧ Spelled w ∧ v = u ++ w := by
    refine ⟨?_, ?_, longer⟩
    · rintro rfl
      exact apart (by simpa using longer.symm)
    · intro c member
      exact spelled_word a c (by simp [words, member])
  simp only [stem] at stems
  rcases List.append_eq_append_iff.mp stems with ⟨w, longer, words⟩ | ⟨w, longer, words⟩
  · exact .inl ⟨w, rest _ _ w _ _ unequal longer words⟩
  · exact .inr ⟨w, rest _ _ w _ _ unequal.symm longer words⟩

theorem shared_iff (s t : String) (different : s ≠ t) (m n : Nat) :
    (∃ i < m, ∃ j < n, ofCount (some s) i = ofCount (some t) j) ↔
      (∃ w, GoesOn s t w ∧ 10 * rank w < m ∧ 0 < n) ∨
        ∃ w, GoesOn t s w ∧ 10 * rank w < n ∧ 0 < m := by
  constructor
  · rintro ⟨i, hi, j, hj, same⟩
    rcases goesOn_of_shared s t different i j same with ⟨w, goesOn⟩ | ⟨w, goesOn⟩
    · exact .inl ⟨w, goesOn, (shared_of_goesOn s t w goesOn m n).mp ⟨i, hi, j, hj, same⟩⟩
    · exact .inr ⟨w, goesOn, (shared_of_goesOn t s w goesOn n m).mp ⟨j, hj, i, hi, same.symm⟩⟩
  · rintro (⟨w, goesOn, far⟩ | ⟨w, goesOn, far⟩)
    · exact (shared_of_goesOn s t w goesOn m n).mpr far
    · obtain ⟨j, hj, i, hi, same⟩ := (shared_of_goesOn t s w goesOn n m).mpr far
      exact ⟨i, hi, j, hj, same.symm⟩

end DesignTokens.ShortName
