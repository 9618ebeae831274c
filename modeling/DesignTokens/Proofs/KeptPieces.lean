import DesignTokens.Proofs.ClosedPieces
import DesignTokens.Proofs.CommaSpacing

set_option autoImplicit false

namespace DesignTokens.Commas

open Text

theorem filter_dropWhile_blank (text : List Char) :
    (text.dropWhile isBlank).filter (! isBlank ·) = text.filter (! isBlank ·) := by
  induction text with
  | nil => rfl
  | cons c rest ih =>
    cases blank : isBlank c with
    | true => simpa [blank] using ih
    | false => simp [blank]

theorem filter_step (out : List Char) (mode : Mode) (c : Char) :
    (step out mode c).1.filter (! isBlank ·) = (c :: out).filter (! isBlank ·) := by
  rcases step_cases out mode c with ⟨blank, skipped⟩ | ⟨rfl, _, comma⟩ | ⟨next, written⟩
  · rw [skipped]
    simp [blank]
  · have space : isBlank ' ' = true := by decide
    have solid : isBlank ',' = false := by decide
    rw [comma]
    simp [space, solid, filter_dropWhile_blank]
  · rw [written]

theorem filter_run (text : List Char) :
    (run start text).1.filter (! isBlank ·) = text.reverse.filter (! isBlank ·) := by
  induction text using List.reverseRecOn with
  | nil => rfl
  | append_singleton text c ih =>
    rw [run_concat, filter_step, List.filter_cons, ih, List.reverse_concat, List.filter_cons]

theorem filter_trim (text : List Char) :
    (trim text).filter (! isBlank ·) = text.filter (! isBlank ·) := by
  rw [trim, trimRight, List.filter_reverse, filter_dropWhile_blank, List.filter_reverse,
    List.reverse_reverse, trimLeft, filter_dropWhile_blank]

theorem filter_spaced (text : List Char) :
    (spaced text).filter (! isBlank ·) = text.filter (! isBlank ·) := by
  rw [spaced_eq_run, List.filter_reverse, filter_run, List.filter_reverse, List.reverse_reverse,
    filter_trim]

theorem endsWithUrl_eq (out : List Char) : endsWithUrl out = (urlName? out).isSome := by
  have name : lower ['u', 'r', 'l'] = ['u', 'r', 'l'] := by decide
  match out with
  | [] | [_] | [_, _] => rfl
  | c :: b :: a :: _ =>
    by_cases spelled : lower [a, b, c] = ['u', 'r', 'l'] <;>
      simp [endsWithUrl, sameIgnoringCase, urlName?, name, spelled]

/-- Where the scanner stands when the reader has come to `r`. -/
def Mode.of (r : Reading) (afterComma : Bool) : Mode :=
  ⟨r.string.map fun string => string.1.char, r.url.isSome, r.escaped, afterComma⟩

theorem step_inside {r : Reading} (inside : r.string ≠ none) (out : List Char) (c : Char) :
    step out (.of r false) c = (c :: out, .of (r.next (urlName? out) c) false) := by
  obtain ⟨pieces, url, string, escaped⟩ := r
  obtain ⟨⟨mark, text⟩, rfl⟩ := Option.ne_none_iff_exists'.mp inside
  cases escaped with
  | true => simp [step, Mode.of, Reading.next]
  | false =>
    by_cases hides : c = '\\'
    · simp [step, Mode.of, Reading.next, hides]
    · by_cases closes : c = mark.char
      · subst closes
        simp [step, Mode.of, Reading.next, hides]
      · simp [step, Mode.of, Reading.next, hides, closes]

theorem step_outside {r : Reading} {after : Bool} {c : Char} (outside : r.string = none)
    (notSkipped : ¬ (after = true ∧ isBlank c = true)) (notSpaced : ¬ (c = ',' ∧ r.IsOutside))
    (out : List Char) :
    step out (.of r after) c = (c :: out, .of (r.next (urlName? out) c) false) := by
  obtain ⟨pieces, url, string, escaped⟩ := r
  obtain rfl : string = none := outside
  have written : (after && isBlank c) = false := by simpa using notSkipped
  rcases unmarked_or c with unmarked | ⟨mark, rfl⟩
  · have double : c ≠ '"' := unmarked .double
    have single : c ≠ '\'' := unmarked .single
    have plain : mark? c = none := (mark?_eq_none_iff c).mpr unmarked
    cases url with
    | some body =>
      by_cases closes : c = ')'
      · subst closes
        simp [step, Mode.of, Reading.next, written, plain]
      · simp [step, Mode.of, Reading.next, written, plain, double, single, closes]
    | none =>
      have comma : c ≠ ',' := fun comma => notSpaced ⟨comma, rfl, rfl⟩
      by_cases opens : c = '('
      · subst opens
        cases found : urlName? out <;>
          simp [step, Mode.of, Reading.next, written, plain, endsWithUrl_eq, found]
      · simp [step, Mode.of, Reading.next, written, plain, double, single, comma, opens]
  · cases mark <;> simp [step, Mode.of, Reading.next, mark?, Mark.char, isBlank]

theorem step_written {out : List Char} {after : Bool} {c : Char}
    (outside : after = true → (reading out).IsOutside) (notSkipped : ¬ (after = true ∧ isBlank c = true))
    (notSpaced : ¬ (c = ',' ∧ (reading out).IsOutside)) :
    step out (.of (reading out) after) c = (c :: out, .of (reading (c :: out)) false) := by
  rw [reading]
  by_cases unquoted : (reading out).string = none
  · exact step_outside unquoted notSkipped notSpaced out
  · obtain rfl : after = false := Bool.eq_false_iff.mpr fun commaed => unquoted (outside commaed).1
    exact step_inside unquoted out c

theorem reading_dropWhile_blank {out : List Char} (outside : (reading out).IsOutside) :
    reading (out.dropWhile isBlank) = reading out := by
  induction out with
  | nil => rfl
  | cons c rest ih =>
    cases blank : isBlank c with
    | true =>
      have same : reading (c :: rest) = reading rest := reading_blank_cons blank (.inr outside)
      rw [same] at outside ⊢
      simpa [blank] using ih outside
    | false => simp [blank]

theorem reading_comma {out : List Char} (outside : (reading out).IsOutside) :
    reading (',' :: out) = reading out := by
  have unmarked : mark? ',' = none := rfl
  simp [reading, Reading.next, outside.1, outside.2, unmarked]

theorem reading_spaced {out : List Char} (outside : (reading out).IsOutside) :
    reading (' ' :: ',' :: out.dropWhile isBlank) = reading out := by
  have shorter := reading_dropWhile_blank outside
  rw [← shorter] at outside
  have comma := reading_comma outside
  rw [← comma] at outside
  have space : isBlank ' ' = true := by decide
  exact (reading_blank_cons space (.inl outside)).trans (comma.trans shorter)

/-- The scanner has written what is read like the text it has come through, which is given in reverse. -/
structure Tracks (state : List Char × Mode) (text : List Char) : Prop where
  mode : state.2 = .of (reading state.1) state.2.afterComma
  alike : Alike state.1 text
  comma : state.2.afterComma = true → (reading state.1).IsOutside ∧ state.1.head? = some ' '

theorem step_tracks {state : List Char × Mode} {text : List Char} (tracks : Tracks state text) (c : Char) :
    Tracks (step state.1 state.2 c) (c :: text) := by
  obtain ⟨out, mode⟩ := state
  obtain ⟨place, alike, comma⟩ := tracks
  have same : reading out = reading text := alike []
  dsimp only at place alike comma ⊢
  generalize mode.afterComma = after at *
  obtain rfl := place
  by_cases skips : after = true ∧ isBlank c = true
  -- What is written ends in a space already, so one blank more says nothing to the reader.
  · obtain ⟨rfl, blank⟩ := skips
    obtain ⟨outside, space⟩ := comma rfl
    have skipped : step out (.of (reading out) true) c = (out, .of (reading out) true) := by
      simp [step, Mode.of, outside.1, blank]
    have stopped : Stopped out := by
      obtain ⟨rest, rfl⟩ := List.head?_eq_some_iff.mp space
      exact stopped_of_blank (by decide) rest
    rw [skipped]
    refine ⟨rfl, alike_of_stopped stopped (stopped_of_blank blank text) ?_, fun _ => ⟨outside, space⟩⟩
    exact same.trans (reading_blank_cons blank (.inl (same ▸ outside))).symm
  by_cases spaces : c = ',' ∧ (reading out).IsOutside
  -- The blanks that are dropped stand outside of the pieces, since the comma does.
  · obtain ⟨rfl, outside⟩ := spaces
    have written : step out (.of (reading out) after) ',' =
        (' ' :: ',' :: out.dropWhile isBlank, .of (reading out) true) :=
      step_comma out ⟨by simp [Mode.of, outside.1], by simp [Mode.of, outside.2]⟩
    have unchanged := reading_spaced outside
    have stopped : Stopped (',' :: text) := by
      rintro d first
      obtain rfl := Option.some.inj first
      decide
    rw [written]
    refine ⟨?_, alike_of_stopped (stopped_of_blank (by decide) _) stopped ?_, fun _ => ⟨?_, rfl⟩⟩
    · rw [unchanged]
      rfl
    · rw [unchanged, same, reading_comma (same ▸ outside)]
    · rwa [unchanged]
  · rw [step_written (fun commaed => (comma commaed).1) skips spaces]
    exact ⟨rfl, alike.cons c, fun commaed => absurd commaed Bool.false_ne_true⟩

theorem run_tracks (text : List Char) : Tracks (run start text) text.reverse := by
  induction text using List.reverseRecOn with
  | nil => exact ⟨rfl, fun _ => rfl, fun commaed => absurd commaed Bool.false_ne_true⟩
  | append_singleton text c ih =>
    rw [run_concat, List.reverse_concat]
    exact step_tracks ih c

theorem pieces_read_spaced (text : List Char) : (read (spaced text)).pieces = (read text).pieces := by
  have same : reading (run start (trim text)).1 = reading (trim text).reverse :=
    (run_tracks (trim text)).alike []
  rw [spaced_eq_run, Text.read, List.reverse_reverse, same]
  exact pieces_read_trim text

/--
Spacing the commas of a spaced text changes nothing, and it adds and drops nothing but blanks. The closed strings
and the closed `url(...)` of a text, which are one list in the order in which they end, are those of the spaced text.
-/
theorem spaced_keeps_pieces (text : List Char) :
    spaced (spaced text) = spaced text ∧
      (spaced text).filter (! isBlank ·) = text.filter (! isBlank ·) ∧
      (∃! pieces, Cut text pieces) ∧
      ∀ pieces, Cut (spaced text) pieces ↔ Cut text pieces := by
  refine ⟨spaced_spaced text, filter_spaced text, existsUnique_cut text, fun pieces => ?_⟩
  rw [cut_iff, cut_iff, pieces_read_spaced]

end DesignTokens.Commas
