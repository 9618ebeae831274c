import Mathlib.Data.List.TakeWhile
import DesignTokens.Text.Basic

set_option autoImplicit false

namespace DesignTokens.Text

def Blanks (text : List Char) : Prop := ∀ c ∈ text, isBlank c = true

def Solid (text : List Char) : Prop := text ≠ [] ∧ ∀ c ∈ text, isBlank c = false

def Stops (rest : List Char) : Prop := ∀ c ∈ rest.head?, isBlank c = true

theorem ne_of_isBlank {c d : Char} (blank : isBlank c = true) (solid : isBlank d = false) : c ≠ d := by
  rintro rfl
  rw [solid] at blank
  cases blank

theorem blanks_cons_iff (c : Char) (text : List Char) :
    Blanks (c :: text) ↔ isBlank c = true ∧ Blanks text := by
  simp [Blanks]

theorem trimLeft_eq_self (text : List Char) (first : ∀ c ∈ text.head?, isBlank c = false) :
    trimLeft text = text := by
  cases text with
  | nil => rfl
  | cons c rest =>
    have solid : isBlank c = false := first c (by simp)
    simp [trimLeft, solid]

theorem trimRight_eq_self (text : List Char) (last : ∀ c ∈ text.getLast?, isBlank c = false) :
    trimRight text = text := by
  have kept := trimLeft_eq_self text.reverse (by simpa using last)
  unfold trimLeft at kept
  rw [trimRight, kept, List.reverse_reverse]

theorem trim_eq_self (text : List Char) (first : ∀ c ∈ text.head?, isBlank c = false)
    (last : ∀ c ∈ text.getLast?, isBlank c = false) : trim text = text := by
  rw [trim, trimLeft_eq_self text first, trimRight_eq_self text last]

theorem trim_of_solid {text : List Char} (solid : ∀ c ∈ text, isBlank c = false) : trim text = text :=
  trim_eq_self text (fun c first => solid c (List.mem_of_mem_head? first))
    fun c last => solid c (List.mem_of_getLast? last)

theorem trim_blank_cons (c : Char) (text : List Char) (blank : isBlank c = true) :
    trim (c :: text) = trim text := by
  simp [trim, trimLeft, blank]

theorem exists_trimLeft (text : List Char) :
    ∃ before, Blanks before ∧ text = before ++ trimLeft text :=
  ⟨text.takeWhile isBlank, fun _ => List.mem_takeWhile_imp, List.takeWhile_append_dropWhile.symm⟩

theorem exists_trimRight (text : List Char) :
    ∃ after, Blanks after ∧ text = trimRight text ++ after := by
  obtain ⟨after, blank, split⟩ := exists_trimLeft text.reverse
  refine ⟨after.reverse, by simpa [Blanks] using blank, ?_⟩
  rw [trimRight, ← List.reverse_append, ← trimLeft, ← split, List.reverse_reverse]

theorem head?_trimLeft (text : List Char) : ∀ c ∈ (trimLeft text).head?, isBlank c = false := by
  intro c first
  have stopped := List.head?_dropWhile_not isBlank text
  rwa [show (text.dropWhile isBlank).head? = some c from first] at stopped

theorem getLast?_trimRight (text : List Char) :
    ∀ c ∈ (trimRight text).getLast?, isBlank c = false := by
  simpa [trimRight, trimLeft] using head?_trimLeft text.reverse

theorem head?_trimRight {text : List Char} (solid : ∀ c ∈ text.head?, isBlank c = false) :
    ∀ c ∈ (trimRight text).head?, isBlank c = false := by
  obtain ⟨after, _, split⟩ := exists_trimRight text
  intro c first
  apply solid
  rw [split, List.head?_append, first]
  rfl

theorem trim_solid (text : List Char) : (∀ c ∈ (trim text).head?, isBlank c = false) ∧
    ∀ c ∈ (trim text).getLast?, isBlank c = false :=
  ⟨head?_trimRight (head?_trimLeft text), getLast?_trimRight _⟩

theorem trim_trim (text : List Char) : trim (trim text) = trim text :=
  trim_eq_self _ (trim_solid text).1 (trim_solid text).2

theorem trimRight_append_blanks (text : List Char) {after : List Char} (blank : Blanks after) :
    trimRight (text ++ after) = trimRight text := by
  have blanks : ∀ c ∈ after.reverse, isBlank c = true := fun c member => blank c (List.mem_reverse.mp member)
  rw [trimRight, List.reverse_append, List.dropWhile_append_of_pos blanks, trimRight]

theorem trim_between_blanks (text : List Char) {before after : List Char} (blankBefore : Blanks before)
    (blankAfter : Blanks after) : trim (before ++ (text ++ after)) = trim text := by
  rw [trim, trimLeft, List.dropWhile_append_of_pos blankBefore, List.dropWhile_append, trim, trimLeft]
  split
  next blank => rw [List.isEmpty_iff.mp blank, List.dropWhile_eq_nil_iff.mpr blankAfter]
  next => exact trimRight_append_blanks _ blankAfter

theorem words_cons (c : Char) (rest : List Char) :
    words (c :: rest) =
      if isBlank c then words rest
      else match rest, words rest with
        | d :: _, word :: more => if isBlank d then [c] :: word :: more else (c :: word) :: more
        | _, more => [c] :: more := rfl

theorem words_blank_cons {c : Char} (blank : isBlank c = true) (text : List Char) :
    words (c :: text) = words text := by
  rw [words_cons, if_pos blank]

theorem words_blanks_append {before : List Char} (blank : Blanks before) (text : List Char) :
    words (before ++ text) = words text := by
  induction before with
  | nil => rfl
  | cons c before ih =>
    obtain ⟨first, others⟩ := (blanks_cons_iff c before).mp blank
    rw [List.cons_append, words_blank_cons first, ih others]

theorem words_solid_append {word rest : List Char} (solid : Solid word) (stops : Stops rest) :
    words (word ++ rest) = word :: words rest := by
  obtain ⟨written, letters⟩ := solid
  induction word with
  | nil => exact absurd rfl written
  | cons c word ih =>
    rw [List.cons_append, words_cons, letters c (by simp)]
    cases word with
    | nil =>
      cases rest with
      | nil => rfl
      | cons d rest =>
        have blank : isBlank d = true := stops d rfl
        rw [List.nil_append]
        cases words (d :: rest) <;> simp only [blank, Bool.false_eq_true, if_false, if_true]
    | cons d word =>
      rw [ih (by simp) fun e member => letters e (List.mem_cons_of_mem c member)]
      simp only [List.cons_append, letters d (by simp), Bool.false_eq_true, if_false]

theorem blanks_or_first_word (text : List Char) :
    Blanks text ∨ ∃ before word rest, Blanks before ∧ Solid word ∧ Stops rest ∧
      text = before ++ (word ++ rest) := by
  obtain ⟨before, blanks, split⟩ := exists_trimLeft text
  have starts := head?_trimLeft text
  cases behind : trimLeft text with
  | nil =>
    rw [split, behind, List.append_nil]
    exact .inl blanks
  | cons c tail =>
    right
    rw [behind] at split starts
    have first : isBlank c = false := starts c rfl
    refine ⟨before, (c :: tail).takeWhile (! isBlank ·), (c :: tail).dropWhile (! isBlank ·), blanks,
      ⟨by simp [first], fun d member => ?_⟩, fun d head => ?_, ?_⟩
    · simpa using List.mem_takeWhile_imp member
    · have stop := List.head?_dropWhile_not (! isBlank ·) (c :: tail)
      rw [head] at stop
      simpa using stop
    · rw [List.takeWhile_append_dropWhile]
      exact split

theorem words_eq_nil_iff (text : List Char) : words text = [] ↔ Blanks text := by
  constructor
  · intro wordless
    rcases blanks_or_first_word text with blank | ⟨before, word, rest, blanks, solid, stops, rfl⟩
    · exact blank
    · rw [words_blanks_append blanks, words_solid_append solid stops] at wordless
      cases wordless
  · intro blank
    have wordless := words_blanks_append blank []
    rwa [List.append_nil] at wordless

theorem exists_of_words_cons {text word : List Char} {more : List (List Char)}
    (cut : words text = word :: more) :
    ∃ before rest, Blanks before ∧ Solid word ∧ Stops rest ∧ text = before ++ (word ++ rest) ∧
      words rest = more := by
  rcases blanks_or_first_word text with blank | ⟨before, first, rest, blanks, solid, stops, rfl⟩
  · rw [(words_eq_nil_iff text).mpr blank] at cut
    cases cut
  · rw [words_blanks_append blanks, words_solid_append solid stops] at cut
    obtain ⟨rfl, rfl⟩ := List.cons.inj cut
    exact ⟨before, rest, blanks, solid, stops, rfl, rfl⟩

end DesignTokens.Text
