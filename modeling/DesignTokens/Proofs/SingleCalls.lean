import DesignTokens.Proofs.Nesting
import DesignTokens.Proofs.Words
import DesignTokens.Reference

set_option autoImplicit false

namespace DesignTokens

namespace Text

theorem splitFirst?_eq_some {separator : Char} {text first rest : List Char}
    (split : splitFirst? separator text = some (first, rest)) : text = first ++ separator :: rest := by
  unfold splitFirst? at split
  have whole := List.takeWhile_append_dropWhile (p := (· != separator)) (l := text)
  cases dropped : text.dropWhile (· != separator) with
  | nil => simp [dropped] at split
  | cons c behind =>
    have found : c = separator := by
      simpa [dropped] using List.head_dropWhile_not (· != separator) (l := text) (by simp [dropped])
    simp only [dropped, Option.some.injEq, Prod.mk.injEq] at split
    rw [← whole, dropped, split.1, split.2, found]

namespace Nesting

def settled : Nesting → Nesting
  | .escaped mark depth => .quoted mark depth
  | n => n

@[simp]
theorem settled_settled (n : Nesting) : n.settled.settled = n.settled := by
  cases n <;> rfl

theorem settled_eq_plain_iff (n : Nesting) (depth : Nat) : n.settled = plain depth ↔ n = plain depth := by
  cases n <;> simp [settled]

theorem step_settles (n : Nesting) {c : Char} (other : isNesting c = false) (kept : c ≠ '\\') :
    n.step c = some n.settled := by
  cases n with
  | plain depth => exact step_plain other depth
  | escaped mark depth => rfl
  | quoted mark depth =>
    have differs : c ≠ mark.char := by
      rintro rfl
      cases mark <;> cases other
    simp [step, settled, kept, differs]

theorem settles_of_isBlank {c : Char} (blank : isBlank c = true) :
    isNesting c = false ∧ c ≠ '\\' := by
  constructor
  · cases nesting : isNesting c with
    | false => rfl
    | true =>
      obtain rfl | rfl | ⟨mark, rfl⟩ := cases_of_isNesting nesting
      · cases blank
      · cases blank
      · cases mark <;> cases blank
  · rintro rfl
    cases blank

theorem run_blanks (n : Nesting) {text : List Char} (blank : ∀ c ∈ text, isBlank c = true) :
    n.settled.run text = some n.settled := by
  induction text with
  | nil => rfl
  | cons c rest ih =>
    obtain ⟨other, kept⟩ := settles_of_isBlank (blank c (by simp))
    rw [run_cons, step_settles _ other kept, settled_settled, Option.bind_some]
    exact ih fun d member => blank d (by simp [member])

theorem settled_run_blanks (n : Nesting) {text : List Char}
    (blank : ∀ c ∈ text, isBlank c = true) : (n.run text).map settled = some n.settled := by
  cases text with
  | nil => rfl
  | cons c rest =>
    obtain ⟨other, kept⟩ := settles_of_isBlank (blank c (by simp))
    rw [run_cons, step_settles _ other kept, Option.bind_some,
      run_blanks n fun d member => blank d (by simp [member]), Option.map_some, settled_settled]

theorem settled_run_trim (n : Nesting) (text : List Char) :
    (n.settled.run text).map settled = (n.settled.run (trim text)).map settled := by
  obtain ⟨before, blankBefore, left⟩ := exists_trimLeft text
  obtain ⟨after, blankAfter, right⟩ := exists_trimRight (trimLeft text)
  have whole : text = before ++ (trim text ++ after) := by rw [trim, ← right, ← left]
  have same : n.settled.run text = (n.settled.run (trim text)).bind fun next => next.run after :=
    calc n.settled.run text
      _ = n.settled.run (before ++ (trim text ++ after)) := congrArg _ whole
      _ = n.settled.run (trim text ++ after) := by
        rw [run_append, run_blanks n blankBefore, Option.bind_some]
      _ = _ := run_append _ _ _
  rw [same]
  cases n.settled.run (trim text) with
  | none => rfl
  | some next => exact settled_run_blanks next blankAfter

theorem run_comma (n : Nesting) (first rest : List Char) :
    n.run (first ++ ',' :: rest) = ((n.run first).map settled).bind fun next => next.run rest := by
  have comma (next : Nesting) : next.step ',' = some next.settled :=
    step_settles next (by decide) (by decide)
  rw [run_append]
  cases n.run first with
  | none => rfl
  | some next => rw [Option.bind_some, run_cons, comma, Option.map_some]

end Nesting

theorem balanced_iff_settled (text : List Char) :
    Balanced text ↔ ((Nesting.plain 0).run text).map Nesting.settled = some (.plain 0) := by
  rw [balanced_iff_run]
  cases (Nesting.plain 0).run text with
  | none => simp
  | some n => simp [Nesting.settled_eq_plain_iff]

theorem balanced_append_of_plain {text : List Char} (other : ∀ c ∈ text, isNesting c = false)
    (rest : List Char) : Balanced (text ++ rest) ↔ Balanced rest := by
  induction text with
  | nil => rfl
  | cons c text ih =>
    rw [← ih fun d member => other d (by simp [member]), balanced_iff_run, balanced_iff_run,
      List.cons_append, Nesting.run_cons, Nesting.step_plain (other c (by simp)), Option.bind_some]

end Text

namespace VarCall

open Text

/-- The parenthesis that closes the outer `var(` ends the text. -/
def IsSingle (text : String) : Prop :=
  ∃ opened, trim text.toList = "var(".toList ++ opened ∧ afterClose? (.plain 0) opened = some []

def pieces (call : VarCall) : List Char :=
  match call.fallback with
  | some fallback => call.name.toList ++ ',' :: fallback.toList
  | none => call.name.toList

theorem read?_eq_some_iff (text : String) (call : VarCall) :
    read? text = some call ↔
      ∃ inner, trim text.toList = "var(".toList ++ (inner ++ [')']) ∧ body inner = call ∧
        "--".toList.isPrefixOf call.name.toList = true := by
  simp only [read?, Option.bind_eq_bind, Option.bind_eq_some_iff, after?_eq_some_iff,
    before?_eq_some_iff, Option.ite_none_right_eq_some, Option.some.injEq]
  constructor
  · rintro ⟨_, cut, inner, rfl, dashes, rfl⟩
    exact ⟨inner, cut, rfl, dashes⟩
  · rintro ⟨inner, cut, rfl, dashes⟩
    exact ⟨_, cut, inner, rfl, dashes, rfl⟩

theorem isSingle_iff {text : String} {inner : List Char}
    (cut : trim text.toList = "var(".toList ++ (inner ++ [')'])) : IsSingle text ↔ Balanced inner := by
  simp only [IsSingle, afterClose?_plain_iff, cut, List.append_cancel_left_eq]
  constructor
  · rintro ⟨_, rfl, inside, balanced, split⟩
    rwa [List.append_cancel_right split]
  · intro balanced
    exact ⟨_, rfl, inner, balanced, rfl⟩

theorem balanced_body_iff (inner : List Char) : Balanced inner ↔ Balanced (body inner).pieces := by
  have plain : Nesting.plain 0 = (Nesting.plain 0).settled := rfl
  rw [balanced_iff_settled, balanced_iff_settled, body]
  split
  next first rest split =>
    rw [splitFirst?_eq_some split]
    simp only [pieces, String.toList_ofList, Nesting.run_comma]
    rw [plain, Nesting.settled_run_trim]
    cases (Nesting.plain 0).settled.run (trim first) with
    | none => rfl
    | some next => simp [Nesting.settled_run_trim next rest]
  next =>
    simp only [pieces, String.toList_ofList]
    rw [plain, Nesting.settled_run_trim]

theorem balanced_pieces_iff {call : VarCall} (other : ∀ c ∈ call.name.toList, isNesting c = false) :
    Balanced call.pieces ↔ ∀ fallback ∈ call.fallback, Balanced fallback.toList := by
  obtain ⟨name, fallback⟩ := call
  cases fallback with
  | none =>
    have balanced := (balanced_append_of_plain other []).mpr .nil
    simpa [pieces] using balanced
  | some fallback =>
    have comma : ∀ c ∈ [','], isNesting c = false := by simp [isNesting]
    calc Balanced (name.toList ++ ',' :: fallback.toList)
      _ ↔ Balanced ([','] ++ fallback.toList) := balanced_append_of_plain other _
      _ ↔ Balanced fallback.toList := balanced_append_of_plain comma _
      _ ↔ _ := by simp

end VarCall

theorem Reference.resolve_of_read?_absent {text : String} {call : VarCall} {s : Sheet}
    (read : VarCall.read? text = some call) (absent : OrderedMap.get? s.root call.name = none)
    (value : String) : resolve s text = .ok value ↔ call.fallback = some value := by
  simp only [resolve, read, absent]
  cases call.fallback <;> simp

/--
A text that reads as a call is one call exactly if its name and its fallback are balanced together. Any
other text reads all the same, and a value that is then taken from its fallback is cut out of several functions.
-/
theorem VarCall.isSingle_of_read?_iff (text : String) (call : VarCall)
    (read : VarCall.read? text = some call) :
    (IsSingle text ↔ Text.Balanced call.pieces) ∧
      ((∀ c ∈ call.name.toList, Text.isNesting c = false) →
        (IsSingle text ↔ ∀ fallback ∈ call.fallback, Text.Balanced fallback.toList) ∧
        ∀ s : Sheet, OrderedMap.get? s.root call.name = none →
          (IsSingle text ↔
            ∀ value, Reference.resolve s text = .ok value → Text.Balanced value.toList)) := by
  obtain ⟨inner, cut, rfl, _⟩ := (read?_eq_some_iff text call).mp read
  have single : IsSingle text ↔ Text.Balanced (body inner).pieces :=
    (isSingle_iff cut).trans (balanced_body_iff inner)
  refine ⟨single, fun other => ?_⟩
  have ofFallback := single.trans (balanced_pieces_iff other)
  refine ⟨ofFallback, fun s absent => ofFallback.trans ?_⟩
  simp only [Reference.resolve_of_read?_absent read absent, Option.mem_def]

theorem VarCall.isSingle_of_read?_iff_juxtaposed :
    let text := "var(--a, 1px) var(--b, 2px)"
    let fragment := "1px) var(--b, 2px"
    VarCall.read? text = some ⟨"--a", some fragment⟩ ∧ ¬ IsSingle text ∧
      Reference.resolve Sheet.empty text = .ok fragment := by
  intro text fragment
  have read : VarCall.read? text = some ⟨"--a", some fragment⟩ := by decide
  have absent : OrderedMap.get? Sheet.empty.root "--a" = none := rfl
  have single := (VarCall.isSingle_of_read?_iff text _ read).2 (by simp [Text.isNesting])
  refine ⟨read, ?_, (Reference.resolve_of_read?_absent read absent fragment).mpr rfl⟩
  intro one
  exact absurd (single.1.mp one fragment rfl) (by decide)

end DesignTokens
