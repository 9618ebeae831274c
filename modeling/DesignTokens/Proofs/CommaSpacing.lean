import Mathlib.Data.List.Induction
import DesignTokens.Proofs.CallText
import DesignTokens.Proofs.SingleCalls

set_option autoImplicit false

namespace DesignTokens

namespace Commas

open Text

def start : List Char × Mode := ([], .plain)

def run (state : List Char × Mode) (text : List Char) : List Char × Mode :=
  text.foldl (fun state c => step state.1 state.2 c) state

theorem run_append (state : List Char × Mode) (first second : List Char) :
    run state (first ++ second) = run (run state first) second := by
  simp [run]

theorem run_concat (state : List Char × Mode) (text : List Char) (c : Char) :
    run state (text ++ [c]) = step (run state text).1 (run state text).2 c := by
  simp [run]

theorem scan_eq_run (out : List Char) (mode : Mode) (text : List Char) :
    scan out mode text = (run (out, mode) text).1.reverse := by
  induction text generalizing out mode with
  | nil => rfl
  | cons c rest ih => exact ih _ _

theorem spaced_eq_run (text : List Char) : spaced text = (run start (trim text)).1.reverse :=
  scan_eq_run [] .plain (trim text)

def Mode.Spaces (mode : Mode) : Prop := mode.quote = none ∧ mode.url = false

def Mode.commaed (mode : Mode) : Mode := { mode with afterComma := true }

theorem Mode.Spaces.of_commaed {a b : Mode} (spaces : a.Spaces) (same : b.commaed = a.commaed) :
    b.Spaces := by
  obtain ⟨quote, url⟩ := spaces
  have quotes := congrArg Mode.quote same
  have urls := congrArg Mode.url same
  exact ⟨quotes.trans quote, urls.trans url⟩

theorem step_comma (out : List Char) {mode : Mode} (spaces : mode.Spaces) :
    step out mode ',' = (' ' :: ',' :: out.dropWhile isBlank, mode.commaed) := by
  obtain ⟨quote, url⟩ := spaces
  have solid : isBlank ',' = false := by decide
  simp [step, quote, url, solid, Mode.commaed]

/-- What one character does: nothing, a comma with its space, or the character itself. -/
theorem step_cases (out : List Char) (mode : Mode) (c : Char) :
    (isBlank c = true ∧ step out mode c = (out, mode)) ∨
      (c = ',' ∧ mode.Spaces ∧
        step out mode c = (' ' :: ',' :: out.dropWhile isBlank, mode.commaed)) ∨
      ∃ next, step out mode c = (c :: out, next) := by
  cases quote : mode.quote with
  | some mark =>
    right
    right
    simp only [step, quote]
    repeat' split
    all_goals exact ⟨_, rfl⟩
  | none =>
    by_cases skips : (mode.afterComma && isBlank c) = true
    · have blank := (Bool.and_eq_true_iff.mp skips).2
      exact .inl ⟨blank, by simp [step, quote, skips]⟩
    · right
      by_cases comma : c = ',' ∧ mode.url = false
      · obtain ⟨rfl, url⟩ := comma
        exact .inl ⟨rfl, ⟨quote, url⟩, step_comma out ⟨quote, url⟩⟩
      · right
        simp only [step, quote, skips]
        repeat' split
        all_goals first | exact ⟨_, rfl⟩ | simp_all

def Mode.Marked (mode : Mode) : Prop := ∀ mark ∈ mode.quote, isBlank mark = false

theorem step_marked (out : List Char) {mode : Mode} (marked : mode.Marked) (c : Char) :
    (step out mode c).2.Marked := by
  cases quote : mode.quote with
  | some mark =>
    have solid := marked mark quote
    simp only [step, quote]
    repeat' split
    all_goals simp [Mode.Marked, quote, solid]
  | none =>
    simp only [step, quote]
    repeat' split
    all_goals simp [Mode.Marked, quote]
    rename_i marks
    simp only [Bool.or_eq_true, decide_eq_true_eq] at marks
    rcases marks with rfl | rfl <;> decide

theorem run_marked {state : List Char × Mode} (marked : state.2.Marked) (text : List Char) :
    (run state text).2.Marked := by
  induction text generalizing state with
  | nil => exact marked
  | cons c rest ih => exact ih (step_marked state.1 marked c)

theorem step_blank {out : List Char} {mode : Mode} {c : Char} (marked : mode.Marked)
    (blank : isBlank c = true) (unquoted : (step out mode c).2.quote = none) :
    mode.quote = none ∧ (step out mode c).2.commaed = mode.commaed ∧
      (step out mode c).1.dropWhile isBlank = out.dropWhile isBlank := by
  cases quote : mode.quote with
  | some mark =>
    have differs : c ≠ mark := ne_of_isBlank blank (marked mark quote)
    simp only [step, quote, differs, if_false] at unquoted
    repeat' split at unquoted
    all_goals simp [quote] at unquoted
  | none =>
    have double : c ≠ '"' := ne_of_isBlank blank (by decide)
    have single : c ≠ '\'' := ne_of_isBlank blank (by decide)
    have opening : c ≠ '(' := ne_of_isBlank blank (by decide)
    have closing : c ≠ ')' := ne_of_isBlank blank (by decide)
    have comma : c ≠ ',' := ne_of_isBlank blank (by decide)
    cases after : mode.afterComma <;>
      simp [step, quote, after, blank, double, single, opening, closing, comma, Mode.commaed]

theorem run_blanks {state : List Char × Mode} {blanks : List Char} (marked : state.2.Marked)
    (blank : ∀ c ∈ blanks, isBlank c = true) (unquoted : (run state blanks).2.quote = none) :
    state.2.quote = none ∧ (run state blanks).2.commaed = state.2.commaed ∧
      (run state blanks).1.dropWhile isBlank = state.1.dropWhile isBlank := by
  induction blanks generalizing state with
  | nil => exact ⟨unquoted, rfl, rfl⟩
  | cons c rest ih =>
    obtain ⟨behind, mode, text⟩ := ih (step_marked state.1 marked c)
      (fun d member => blank d (by simp [member])) unquoted
    obtain ⟨before, sameMode, sameText⟩ := step_blank marked (blank c (by simp)) behind
    exact ⟨before, mode.trans sameMode, text.trans sameText⟩

theorem start_marked : start.2.Marked := by simp [Mode.Marked, start, Mode.plain]

/-- The blanks before a comma do not matter to what is written for it. -/
theorem run_comma {out : List Char} {mode : Mode} (settled : run start out.reverse = (out, mode))
    (spaces : mode.Spaces) :
    run start ((out.dropWhile isBlank).reverse ++ [',']) =
      (' ' :: ',' :: out.dropWhile isBlank, mode.commaed) := by
  have split : out.reverse = (out.dropWhile isBlank).reverse ++ (out.takeWhile isBlank).reverse := by
    rw [← List.reverse_append, List.takeWhile_append_dropWhile]
  have blank : ∀ c ∈ (out.takeWhile isBlank).reverse, isBlank c = true := by
    intro c member
    exact List.mem_takeWhile_imp (List.mem_reverse.mp member)
  rw [split, run_append] at settled
  rw [run_concat]
  have marked := run_marked start_marked (out.dropWhile isBlank).reverse
  generalize run start (out.dropWhile isBlank).reverse = before at *
  obtain ⟨_, sameMode, sameText⟩ := run_blanks marked blank (by rw [settled]; exact spaces.1)
  rw [settled] at sameMode sameText
  rw [step_comma before.1 (spaces.of_commaed sameMode.symm), ← sameText, sameMode]

theorem step_settled {out : List Char} {mode : Mode} (settled : run start out.reverse = (out, mode))
    (c : Char) : run start (step out mode c).1.reverse = step out mode c := by
  rcases step_cases out mode c with ⟨_, skipped⟩ | ⟨_, spaces, comma⟩ | ⟨next, written⟩
  · rw [skipped]
    exact settled
  · have solid : isBlank ' ' = true := by decide
    have reversed : (' ' :: ',' :: out.dropWhile isBlank).reverse =
        (out.dropWhile isBlank).reverse ++ [','] ++ [' '] := by simp
    rw [comma, reversed, run_concat, run_comma settled spaces]
    simp [step, Mode.commaed, spaces.1, solid]
  · rw [written, List.reverse_cons, run_concat, settled]
    exact written

/-- A run over what was written so far ends where it was written. -/
theorem run_settled (text : List Char) : run start (run start text).1.reverse = run start text := by
  induction text using List.reverseRecOn with
  | nil => rfl
  | append_singleton text c ih =>
    rw [run_concat]
    exact step_settled ih c

theorem getLast?_step {out : List Char} {first : Char} (head : out.getLast? = some first)
    (solid : isBlank first = false) (mode : Mode) (c : Char) :
    (step out mode c).1.getLast? = some first := by
  rcases step_cases out mode c with ⟨_, skipped⟩ | ⟨_, _, comma⟩ | ⟨next, written⟩
  · rw [skipped]
    exact head
  · obtain ⟨before, rfl⟩ := List.getLast?_eq_some_iff.mp head
    have kept : (before ++ [first]).dropWhile isBlank = before.dropWhile isBlank ++ [first] := by
      rw [List.dropWhile_append]
      split
      next nothing => simp [List.isEmpty_iff.mp nothing, solid]
      next => rfl
    rw [comma, kept, ← List.cons_append, ← List.cons_append, List.getLast?_concat]
  · rw [written]
    simp [List.getLast?_cons, head]

theorem getLast?_run {state : List Char × Mode} {first : Char} (head : state.1.getLast? = some first)
    (solid : isBlank first = false) (text : List Char) :
    (run state text).1.getLast? = some first := by
  induction text generalizing state with
  | nil => exact head
  | cons c rest ih => exact ih (getLast?_step head solid state.2 c)

theorem getLast?_run_start {text : List Char} (solid : ∀ c ∈ text.head?, isBlank c = false) :
    (run start text).1.getLast? = text.head? := by
  cases text with
  | nil => rfl
  | cons c rest =>
    have solid : isBlank c = false := solid c rfl
    suffices head : (step [] .plain c).1.getLast? = some c from getLast?_run head solid rest
    rcases step_cases [] .plain c with ⟨blank, _⟩ | ⟨rfl, _, comma⟩ | ⟨next, written⟩
    · simp [solid] at blank
    · rw [comma]
      rfl
    · rw [written]
      rfl

theorem trim_reverse {out : List Char} (solid : ∀ c ∈ out.getLast?, isBlank c = false) :
    trim out.reverse = (out.dropWhile isBlank).reverse := by
  have left : trimLeft out.reverse = out.reverse := by
    apply trimLeft_eq_self
    simpa using solid
  rw [trim, left, trimRight, List.reverse_reverse]

theorem run_trim {text : List Char} (first : ∀ c ∈ text.head?, isBlank c = false)
    (last : ∀ c ∈ text.getLast?, isBlank c = false) :
    run start (trim (run start text).1.reverse) = run start text := by
  rw [trim_reverse (by rw [getLast?_run_start first]; exact first)]
  rcases List.eq_nil_or_concat text with rfl | ⟨before, c, rfl⟩
  · rfl
  rw [List.concat_eq_append] at last ⊢
  have solid : isBlank c = false := last c (by simp)
  have comma : isBlank ',' = false := by decide
  have space : isBlank ' ' = true := by decide
  have settled := run_settled before
  rw [run_concat]
  generalize run start before = state at *
  obtain ⟨out, mode⟩ := state
  rcases step_cases out mode c with ⟨blank, _⟩ | ⟨_, spaces, spaced⟩ | ⟨next, written⟩
  · simp [solid] at blank
  · rw [spaced]
    simpa [space, comma] using run_comma settled spaces
  · have after := step_settled settled c
    rw [written] at after ⊢
    simpa [solid] using after

theorem spaced_trim (text : List Char) : spaced (trim text) = spaced text := by
  rw [spaced, trim_trim, spaced]

theorem spaced_spaced (text : List Char) : spaced (spaced text) = spaced text := by
  obtain ⟨first, last⟩ := trim_solid text
  rw [spaced_eq_run (spaced text), spaced_eq_run text, run_trim first last]

end Commas

namespace VarCall

/--
A call is read back from its text under its name, with a fallback if it had one, which is the trimmed text that
was written for it; and the call that was read has the same text.
-/
theorem write_of_read?_write (call : VarCall) (named : WellNamed call.name) :
    ∃ again, read? call.write = some again ∧ again.name = call.name ∧
      again.fallback = call.fallback.map (fun text =>
        String.ofList (Text.trim (Commas.spaced text.toList))) ∧
      again.write = call.write := by
  refine ⟨call.normalized, read?_write call named, rfl, rfl, ?_⟩
  obtain ⟨name, fallback⟩ := call
  cases fallback with
  | none => rfl
  | some text => simp [normalized, write, Commas.spaced_trim, Commas.spaced_spaced]

theorem write_of_read?_write_unclosed :
    let call : VarCall := ⟨"--a", some " url(a,b) ,, 'c ,\t"⟩
    WellNamed call.name ∧ call.write = "var(--a, url(a,b),, 'c ,)" ∧
      read? call.write = some ⟨"--a", some "url(a,b),, 'c ,"⟩ ∧
      (VarCall.mk "--a" (some "url(a,b),, 'c ,")).write = call.write := by
  intro call
  have named : WellNamed call.name := ⟨by decide, by decide, by decide⟩
  have read : read? call.write = some ⟨"--a", some "url(a,b),, 'c ,"⟩ := by decide
  obtain ⟨again, found, _, _, written⟩ := write_of_read?_write call named
  obtain rfl := Option.some.inj (found.symm.trans read)
  exact ⟨named, by decide, read, written⟩

end VarCall

end DesignTokens
