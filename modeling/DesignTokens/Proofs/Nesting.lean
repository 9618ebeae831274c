import Mathlib.Data.List.TakeWhile
import DesignTokens.Text.Basic

set_option autoImplicit false

namespace DesignTokens.Text

inductive Mark where
  | single
  | double
  deriving DecidableEq

def Mark.char : Mark → Char
  | .single => '\''
  | .double => '"'

inductive Nesting where
  | plain (depth : Nat)
  | quoted (mark : Mark) (depth : Nat)
  | escaped (mark : Mark) (depth : Nat)
  deriving DecidableEq

namespace Nesting

/-- Nothing follows a parenthesis that was opened before the scan. -/
def step : Nesting → Char → Option Nesting
  | .escaped mark depth, _ => some (.quoted mark depth)
  | .quoted mark depth, c =>
      if c = '\\' then some (.escaped mark depth)
      else if c = mark.char then some (.plain depth)
      else some (.quoted mark depth)
  | .plain depth, c =>
      if c = '"' then some (.quoted .double depth)
      else if c = '\'' then some (.quoted .single depth)
      else if c = '(' then some (.plain (depth + 1))
      else if c = ')' then
        match depth with
        | 0 => none
        | depth + 1 => some (.plain depth)
      else some (.plain depth)

def run (n : Nesting) (text : List Char) : Option Nesting := text.foldlM step n

@[simp]
theorem run_nil (n : Nesting) : n.run [] = some n := rfl

@[simp]
theorem run_cons (n : Nesting) (c : Char) (rest : List Char) :
    n.run (c :: rest) = (n.step c).bind fun next => next.run rest := by
  simp [run]

theorem run_append (n : Nesting) (first second : List Char) :
    n.run (first ++ second) = (n.run first).bind fun next => next.run second := by
  simp [run]

end Nesting

def afterClose? (n : Nesting) : List Char → Option (List Char)
  | [] => none
  | c :: rest =>
      match n.step c with
      | none => some rest
      | some next => afterClose? next rest

inductive Quoted (mark : Mark) : List Char → Prop
  | nil : Quoted mark []
  | plain {c : Char} {rest : List Char} : c ≠ mark.char → c ≠ '\\' → Quoted mark rest →
      Quoted mark (c :: rest)
  | escaped {c : Char} {rest : List Char} : Quoted mark rest → Quoted mark ('\\' :: c :: rest)

def isNesting (c : Char) : Bool := c == '(' || c == ')' || c == '"' || c == '\''

/-- Text whose parentheses close each other and whose strings are closed. -/
inductive Balanced : List Char → Prop
  | nil : Balanced []
  | plain {c : Char} {rest : List Char} : isNesting c = false → Balanced rest → Balanced (c :: rest)
  | quoted {mark : Mark} {inside rest : List Char} : Quoted mark inside → Balanced rest →
      Balanced (mark.char :: (inside ++ mark.char :: rest))
  | nested {inside rest : List Char} : Balanced inside → Balanced rest →
      Balanced ('(' :: (inside ++ ')' :: rest))

namespace Nesting

theorem step_plain {c : Char} (other : isNesting c = false) (depth : Nat) :
    (plain depth).step c = some (plain depth) := by
  simp only [isNesting, Bool.or_eq_false_iff, beq_eq_false_iff_ne] at other
  obtain ⟨⟨⟨opening, closing⟩, double⟩, single⟩ := other
  simp [step, opening, closing, double, single]

theorem step_mark (mark : Mark) (depth : Nat) :
    (plain depth).step mark.char = some (quoted mark depth) := by
  cases mark <;> rfl

theorem step_eq_none_iff (n : Nesting) (c : Char) : n.step c = none ↔ n = plain 0 ∧ c = ')' := by
  constructor
  · intro ends
    cases n with
    | escaped mark depth => simp [step] at ends
    | quoted mark depth =>
      simp only [step] at ends
      repeat' split at ends
      all_goals cases ends
    | plain depth =>
      simp only [step] at ends
      repeat' split at ends
      all_goals first | exact ⟨rfl, by assumption⟩ | cases ends
  · rintro ⟨rfl, rfl⟩
    rfl

theorem run_quoted {mark : Mark} {inside : List Char} (held : Quoted mark inside) (depth : Nat) :
    (quoted mark depth).run (inside ++ [mark.char]) = some (plain depth) := by
  induction held with
  | nil => cases mark <;> rfl
  | plain other solid _ ih => simpa [step, other, solid] using ih
  | escaped _ ih => simpa [step] using ih

theorem run_balanced {text : List Char} (balanced : Balanced text) (depth : Nat) :
    (plain depth).run text = some (plain depth) := by
  induction balanced generalizing depth with
  | nil => rfl
  | plain other _ ih => simp [step_plain other, ih]
  | @quoted mark inside rest held _ ih =>
    rw [List.append_cons, run_cons, step_mark, Option.bind_some, run_append, run_quoted held,
      Option.bind_some, ih]
  | @nested inside rest _ _ first second =>
    have opened : (plain depth).step '(' = some (plain (depth + 1)) := rfl
    have closed : (plain (depth + 1)).step ')' = some (plain depth) := rfl
    rw [run_cons, opened, Option.bind_some, run_append, first, Option.bind_some, run_cons, closed,
      Option.bind_some, second]

theorem exists_quoted {mark : Mark} {depth : Nat} : ∀ {text : List Char},
    (quoted mark depth).run text = some (plain 0) →
      ∃ inside rest, Quoted mark inside ∧ text = inside ++ mark.char :: rest ∧
        (plain depth).run rest = some (plain 0)
  | [], ends => by simp at ends
  | c :: rest, ends => by
    by_cases closes : c = mark.char
    · have step : (quoted mark depth).step c = some (plain depth) := by
        subst closes
        cases mark <;> rfl
      rw [run_cons, step, Option.bind_some] at ends
      exact ⟨[], rest, .nil, by rw [closes, List.nil_append], ends⟩
    by_cases hides : c = '\\'
    · subst hides
      cases rest with
      | nil => simp [step] at ends
      | cons hidden rest =>
        have steps : (quoted mark depth).run ('\\' :: hidden :: rest) =
            (quoted mark depth).run rest := rfl
        obtain ⟨inside, later, held, rfl, after⟩ := exists_quoted (steps ▸ ends)
        exact ⟨_, later, .escaped held, rfl, after⟩
    · have step : (quoted mark depth).step c = some (quoted mark depth) := by
        simp [step, closes, hides]
      rw [run_cons, step, Option.bind_some] at ends
      obtain ⟨inside, later, held, rfl, after⟩ := exists_quoted ends
      exact ⟨_, later, .plain closes hides held, rfl, after⟩

theorem cases_of_isNesting {c : Char} (nesting : isNesting c = true) :
    c = '(' ∨ c = ')' ∨ ∃ mark : Mark, c = mark.char := by
  simp only [isNesting, Bool.or_eq_true, beq_iff_eq] at nesting
  obtain ((opening | closing) | double) | single := nesting
  · exact .inl opening
  · exact .inr (.inl closing)
  · exact .inr (.inr ⟨.double, double⟩)
  · exact .inr (.inr ⟨.single, single⟩)

theorem exists_balanced {text : List Char} {depth : Nat}
    (ends : (plain depth).run text = some (plain 0)) :
    ∃ inside rest, Balanced inside ∧ text = inside ++ rest ∧
      (depth = 0 ∧ rest = [] ∨
        ∃ outer later, depth = outer + 1 ∧ rest = ')' :: later ∧
          (plain outer).run later = some (plain 0)) := by
  match text with
  | [] => exact ⟨[], [], .nil, rfl, .inl ⟨by simpa using ends, rfl⟩⟩
  | c :: behind =>
    rw [run_cons] at ends
    cases nesting : isNesting c with
    | false =>
      rw [step_plain nesting, Option.bind_some] at ends
      obtain ⟨inside, rest, held, rfl, left⟩ := exists_balanced ends
      exact ⟨c :: inside, rest, .plain nesting held, rfl, left⟩
    | true =>
      obtain rfl | rfl | ⟨mark, rfl⟩ := cases_of_isNesting nesting
      · have deeper : (plain (depth + 1)).run behind = some (plain 0) := ends
        obtain ⟨nested, _, held, rfl, left⟩ := exists_balanced deeper
        obtain ⟨none, _⟩ | ⟨outer, later, same, rfl, closed⟩ := left
        · cases none
        obtain rfl : depth = outer := Nat.succ.inj same
        obtain ⟨inside, rest, following, rfl, left⟩ := exists_balanced closed
        exact ⟨_, rest, .nested held following, by simp, left⟩
      · cases depth with
        | zero => cases ends
        | succ outer => exact ⟨[], _, .nil, rfl, .inr ⟨outer, behind, rfl, rfl, ends⟩⟩
      · rw [step_mark, Option.bind_some] at ends
        obtain ⟨string, later, held, rfl, closed⟩ := exists_quoted ends
        obtain ⟨inside, rest, following, rfl, left⟩ := exists_balanced closed
        exact ⟨_, rest, .quoted held following, by simp, left⟩
termination_by text.length

end Nesting

theorem balanced_iff_run (text : List Char) :
    Balanced text ↔ (Nesting.plain 0).run text = some (.plain 0) := by
  constructor
  · intro balanced
    exact Nesting.run_balanced balanced 0
  · intro ends
    obtain ⟨inside, rest, balanced, rfl, ⟨_, rfl⟩ | ⟨_, _, deeper, _⟩⟩ := Nesting.exists_balanced ends
    · simpa using balanced
    · cases deeper

instance : DecidablePred Balanced := fun text => decidable_of_iff _ (balanced_iff_run text).symm

theorem afterClose?_eq_some_iff (n : Nesting) (text rest : List Char) :
    afterClose? n text = some rest ↔
      ∃ inside, n.run inside = some (.plain 0) ∧ text = inside ++ ')' :: rest := by
  induction text generalizing n with
  | nil => simp [afterClose?]
  | cons c behind ih =>
    constructor
    · intro closed
      rw [afterClose?] at closed
      split at closed
      next stops =>
        obtain ⟨rfl, rfl⟩ := (n.step_eq_none_iff c).mp stops
        exact ⟨[], rfl, by simpa using closed⟩
      next next step =>
        obtain ⟨inside, run, rfl⟩ := (ih next).mp closed
        exact ⟨c :: inside, by simp [step, run], rfl⟩
    · rintro ⟨inside, run, split⟩
      cases inside with
      | nil =>
        obtain ⟨rfl, rfl⟩ := List.cons.inj split
        obtain rfl := Option.some.inj run
        rfl
      | cons d inside =>
        obtain ⟨rfl, rfl⟩ := List.cons.inj split
        obtain ⟨next, step, run⟩ := Option.bind_eq_some_iff.mp ((n.run_cons c inside).symm.trans run)
        rw [afterClose?, step]
        exact (ih next).mpr ⟨inside, run, rfl⟩

theorem afterClose?_plain_iff (text rest : List Char) :
    afterClose? (.plain 0) text = some rest ↔
      ∃ inside, Balanced inside ∧ text = inside ++ ')' :: rest := by
  simp only [afterClose?_eq_some_iff, balanced_iff_run]

end DesignTokens.Text
