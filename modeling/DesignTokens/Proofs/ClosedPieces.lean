import Mathlib.Data.List.Induction
import DesignTokens.Proofs.LetterCase
import DesignTokens.Proofs.Nesting
import DesignTokens.Proofs.Words

set_option autoImplicit false

namespace DesignTokens.Text

def IsUrlName (name : List Char) : Prop := lower name = ['u', 'r', 'l']

def Unmarked (c : Char) : Prop := ∀ mark : Mark, c ≠ mark.char

def IsString (text : List Char) : Prop :=
  ∃ (mark : Mark) (inside : List Char), Quoted mark inside ∧ text = mark.char :: (inside ++ [mark.char])

def IsOpenString (text : List Char) : Prop :=
  ∃ (mark : Mark) (inside : List Char), Quoted mark inside ∧
    (text = mark.char :: inside ∨ text = mark.char :: (inside ++ ['\\']))

inductive UrlBody : List Char → List (List Char) → Prop
  | nil : UrlBody [] []
  | char {body : List Char} {strings : List (List Char)} {c : Char} : UrlBody body strings → Unmarked c →
      c ≠ ')' → UrlBody (body ++ [c]) strings
  | string {body string : List Char} {strings : List (List Char)} : UrlBody body strings →
      IsString string → UrlBody (body ++ string) (strings ++ [string])

/--
A text that ends outside of strings and of `url(...)`, with the pieces of it that are closed, in the order in
which they end. A backslash hides nothing outside of strings.
-/
inductive Outside : List Char → List (List Char) → Prop
  | nil : Outside [] []
  | char {text : List Char} {pieces : List (List Char)} {c : Char} : Outside text pieces → Unmarked c →
      (c = '(' → ∀ before name, text = before ++ name → ¬ IsUrlName name) → Outside (text ++ [c]) pieces
  | string {text string : List Char} {pieces : List (List Char)} : Outside text pieces →
      IsString string → Outside (text ++ string) (pieces ++ [string])
  | url {before name body : List Char} {pieces strings : List (List Char)} :
      Outside (before ++ name) pieces → IsUrlName name → UrlBody body strings →
      Outside (before ++ name ++ '(' :: (body ++ [')']))
        (pieces ++ strings ++ [name ++ '(' :: (body ++ [')'])])

/-- A text and its closed pieces; at its end a string may be open, a `url(` or both. -/
inductive Cut : List Char → List (List Char) → Prop
  | outside {text rest : List Char} {pieces : List (List Char)} : Outside text pieces →
      (rest = [] ∨ IsOpenString rest) → Cut (text ++ rest) pieces
  | url {before name body rest : List Char} {pieces strings : List (List Char)} :
      Outside (before ++ name) pieces → IsUrlName name → UrlBody body strings →
      (rest = [] ∨ IsOpenString rest) → Cut (before ++ name ++ '(' :: (body ++ rest)) (pieces ++ strings)

structure Reading where
  pieces : List (List Char)
  url : Option (List Char)
  string : Option (Mark × List Char)
  escaped : Bool
  deriving DecidableEq

def mark? (c : Char) : Option Mark :=
  if c = '"' then some .double else if c = '\'' then some .single else none

-- Text that was read is kept in reverse.
def urlName? : List Char → Option (List Char)
  | c :: b :: a :: _ => if lower [a, b, c] = ['u', 'r', 'l'] then some [a, b, c] else none
  | _ => none

namespace Reading

def next (r : Reading) (name : Option (List Char)) (c : Char) : Reading :=
  match r.string with
  | some (mark, text) =>
      if r.escaped then { r with string := some (mark, text ++ [c]), escaped := false }
      else if c = '\\' then { r with string := some (mark, text ++ [c]), escaped := true }
      else if c = mark.char then
        { r with
          pieces := r.pieces ++ [text ++ [c]]
          url := r.url.map fun body => body ++ (text ++ [c])
          string := none }
      else { r with string := some (mark, text ++ [c]) }
  | none =>
      match mark? c, r.url with
      | some mark, _ => { r with string := some (mark, [c]) }
      | none, some body =>
          if c = ')' then { r with pieces := r.pieces ++ [body ++ [c]], url := none }
          else { r with url := some (body ++ [c]) }
      | none, none => if c = '(' then { r with url := name.map fun name => name ++ [c] } else r

end Reading

def reading : List Char → Reading
  | [] => ⟨[], none, none, false⟩
  | c :: before => (reading before).next (urlName? before) c

def read (text : List Char) : Reading := reading text.reverse

theorem read_concat (text : List Char) (c : Char) :
    read (text ++ [c]) = (read text).next (urlName? text.reverse) c := by
  rw [read, List.reverse_append]
  rfl

theorem mark?_char (mark : Mark) : mark? mark.char = some mark := by
  cases mark <;> rfl

theorem mark?_eq_none_iff (c : Char) : mark? c = none ↔ Unmarked c := by
  constructor
  · intro unmarked mark same
    rw [same, mark?_char] at unmarked
    cases unmarked
  · intro unmarked
    have double := unmarked .double
    have single := unmarked .single
    simp only [Mark.char] at double single
    simp [mark?, double, single]

theorem unmarked_or (c : Char) : Unmarked c ∨ ∃ mark : Mark, c = mark.char := by
  by_cases unmarked : Unmarked c
  · exact .inl unmarked
  · exact .inr (by simpa [Unmarked] using unmarked)

theorem urlName?_reverse_iff (text name : List Char) :
    urlName? text.reverse = some name ↔ IsUrlName name ∧ ∃ before, text = before ++ name := by
  constructor
  · intro named
    unfold urlName? at named
    split at named
    next c b a rest last =>
      obtain ⟨spelled, same⟩ := Option.ite_none_right_eq_some.mp named
      obtain rfl := Option.some.inj same
      refine ⟨spelled, rest.reverse, ?_⟩
      simpa using congrArg List.reverse last
    next => cases named
  · rintro ⟨spelled, before, rfl⟩
    obtain ⟨a, rest, rfl, first, behind⟩ := List.map_eq_cons_iff.mp spelled
    obtain ⟨b, rest, rfl, second, behind⟩ := List.map_eq_cons_iff.mp behind
    obtain ⟨c, rest, rfl, third, behind⟩ := List.map_eq_cons_iff.mp behind
    obtain rfl := List.map_eq_nil_iff.mp behind
    simp [urlName?, lower, first, second, third]

theorem Quoted.append {mark : Mark} {first second : List Char} (front : Quoted mark first)
    (behind : Quoted mark second) : Quoted mark (first ++ second) := by
  induction front with
  | nil => exact behind
  | plain other solid _ ih => exact .plain other solid ih
  | escaped _ ih => exact .escaped ih

theorem isString_or_isOpenString {text : List Char} (isOpen : IsOpenString text) (c : Char) :
    IsString (text ++ [c]) ∨ IsOpenString (text ++ [c]) := by
  obtain ⟨mark, inside, quoted, rfl | rfl⟩ := isOpen
  · by_cases closes : c = mark.char
    · exact .inl ⟨mark, inside, quoted, by rw [closes, List.cons_append]⟩
    right
    by_cases hides : c = '\\'
    · exact ⟨mark, inside, quoted, .inr (by rw [hides, List.cons_append])⟩
    · exact ⟨mark, inside ++ [c], quoted.append (.plain closes hides .nil), .inl (List.cons_append ..)⟩
  · refine .inr ⟨mark, inside ++ ['\\', c], quoted.append (.escaped .nil), .inl ?_⟩
    simp

theorem isOpenString_mark (mark : Mark) : IsOpenString [mark.char] := ⟨mark, [], .nil, .inl rfl⟩

theorem open_concat {rest : List Char} (isOpen : rest = [] ∨ IsOpenString rest) (c : Char) :
    (rest = [] ∧ Unmarked c) ∨ IsString (rest ++ [c]) ∨ IsOpenString (rest ++ [c]) := by
  rcases isOpen with rfl | isOpen
  · rcases unmarked_or c with unmarked | ⟨mark, rfl⟩
    · exact .inl ⟨rfl, unmarked⟩
    · exact .inr (.inr (isOpenString_mark mark))
  · exact .inr (isString_or_isOpenString isOpen c)

theorem Outside.cut {text : List Char} {pieces : List (List Char)} (outside : Outside text pieces) :
    Cut text pieces := by
  simpa using Cut.outside outside (.inl rfl)

theorem exists_cut (text : List Char) : ∃ pieces, Cut text pieces := by
  -- By the last character: what is open before it says which rule the longer text has.
  induction text using List.reverseRecOn with
  | nil => exact ⟨[], Outside.nil.cut⟩
  | append_singleton text c ih =>
    obtain ⟨pieces, cut⟩ := ih
    cases cut with
    | @outside text rest _ outside isOpen =>
      rcases open_concat isOpen c with ⟨rfl, unmarked⟩ | string | isOpen
      · rw [List.append_nil]
        by_cases opens : c = '(' ∧ ∃ before name, text = before ++ name ∧ IsUrlName name
        · obtain ⟨rfl, before, name, rfl, named⟩ := opens
          exact ⟨_, .url outside named .nil (.inl rfl)⟩
        · refine ⟨pieces, (outside.char unmarked ?_).cut⟩
          rintro rfl before name rfl named
          exact opens ⟨rfl, before, name, rfl, named⟩
      · rw [List.append_assoc]
        exact ⟨_, (outside.string string).cut⟩
      · rw [List.append_assoc]
        exact ⟨_, .outside outside (.inr isOpen)⟩
    | @url before name body rest pieces strings outside named inside isOpen =>
      have more : before ++ name ++ '(' :: (body ++ rest) ++ [c] =
          before ++ name ++ '(' :: (body ++ (rest ++ [c])) := by simp
      rw [more]
      rcases open_concat isOpen c with ⟨rfl, unmarked⟩ | string | isOpen
      · rw [List.nil_append]
        by_cases closes : c = ')'
        · subst closes
          exact ⟨_, (outside.url named inside).cut⟩
        · have longer := Cut.url outside named (inside.char unmarked closes) (.inl rfl)
          rw [List.append_nil] at longer
          exact ⟨_, longer⟩
      · have longer := Cut.url outside named (inside.string string) (.inl rfl)
        rw [List.append_nil] at longer
        exact ⟨_, longer⟩
      · exact ⟨_, .url outside named inside (.inr isOpen)⟩

section Reads

variable {text : List Char} {pieces : List (List Char)} {url : Option (List Char)}

theorem read_quoted {mark : Mark} {inside front : List Char} (quoted : Quoted mark inside)
    (before : read text = ⟨pieces, url, some (mark, front), false⟩) :
    read (text ++ inside) = ⟨pieces, url, some (mark, front ++ inside), false⟩ := by
  induction quoted generalizing text front with
  | nil => simpa using before
  | @plain c rest other solid _ ih =>
    have longer : read (text ++ [c]) = ⟨pieces, url, some (mark, front ++ [c]), false⟩ := by
      simp [read_concat, before, Reading.next, other, solid]
    simpa using ih longer
  | @escaped c rest _ ih =>
    have hidden : read (text ++ ['\\']) = ⟨pieces, url, some (mark, front ++ ['\\']), true⟩ := by
      simp [read_concat, before, Reading.next]
    have longer : read (text ++ ['\\'] ++ [c]) =
        ⟨pieces, url, some (mark, front ++ ['\\'] ++ [c]), false⟩ := by
      rw [read_concat, hidden]
      rfl
    simpa using ih longer

theorem read_mark (before : read text = ⟨pieces, url, none, false⟩) (mark : Mark) :
    read (text ++ [mark.char]) = ⟨pieces, url, some (mark, [mark.char]), false⟩ := by
  simp [read_concat, before, Reading.next, mark?_char]

theorem read_string {string : List Char} (before : read text = ⟨pieces, url, none, false⟩)
    (closed : IsString string) :
    read (text ++ string) = ⟨pieces ++ [string], url.map (· ++ string), none, false⟩ := by
  obtain ⟨mark, inside, quoted, rfl⟩ := closed
  have opened := read_quoted quoted (read_mark before mark)
  have split : text ++ mark.char :: (inside ++ [mark.char]) =
      text ++ [mark.char] ++ inside ++ [mark.char] := by simp
  have solid : mark.char ≠ '\\' := by cases mark <;> decide
  rw [split, read_concat, opened]
  simp [Reading.next, solid]

theorem pieces_read_open {rest : List Char} (before : read text = ⟨pieces, url, none, false⟩)
    (isOpen : rest = [] ∨ IsOpenString rest) : (read (text ++ rest)).pieces = pieces := by
  rcases isOpen with rfl | ⟨mark, inside, quoted, rfl | rfl⟩
  · rw [List.append_nil, before]
  · rw [List.append_cons, read_quoted quoted (read_mark before mark)]
  · rw [List.append_cons, ← List.append_assoc, read_concat, read_quoted quoted (read_mark before mark)]
    simp [Reading.next]

theorem read_urlBody {body front : List Char} {strings : List (List Char)}
    (before : read text = ⟨pieces, some front, none, false⟩) (inside : UrlBody body strings) :
    read (text ++ body) = ⟨pieces ++ strings, some (front ++ body), none, false⟩ := by
  induction inside with
  | nil => simpa using before
  | @char body strings c _ unmarked other ih =>
    rw [← List.append_assoc, read_concat, ih]
    simp [Reading.next, (mark?_eq_none_iff c).mpr unmarked, other]
  | string _ closed ih =>
    rw [← List.append_assoc, read_string ih closed]
    simp

theorem read_url {before name : List Char} (outside : read (before ++ name) = ⟨pieces, none, none, false⟩)
    (named : IsUrlName name) :
    read (before ++ name ++ ['(']) = ⟨pieces, some (name ++ ['(']), none, false⟩ := by
  have found := (urlName?_reverse_iff (before ++ name) name).mpr ⟨named, before, rfl⟩
  rw [read_concat, outside, found]
  rfl

theorem read_outside (outside : Outside text pieces) : read text = ⟨pieces, none, none, false⟩ := by
  induction outside with
  | nil => rfl
  | @char text pieces c _ unmarked unnamed ih =>
    have unopened : c = '(' → urlName? text.reverse = none := by
      intro opens
      by_contra named
      obtain ⟨name, found⟩ := Option.ne_none_iff_exists'.mp named
      obtain ⟨spelled, before, split⟩ := (urlName?_reverse_iff text name).mp found
      exact unnamed opens before name split spelled
    rw [read_concat, ih]
    by_cases opens : c = '('
    · rw [unopened opens, opens]
      rfl
    · simp [Reading.next, (mark?_eq_none_iff c).mpr unmarked, opens]
  | string _ closed ih => exact read_string ih closed
  | url _ named inside ih =>
    rw [List.append_cons, ← List.append_assoc, read_concat, read_urlBody (read_url ih named) inside]
    simp [Reading.next, mark?]

end Reads

/-- A text has exactly one list of closed pieces, the one that is read. -/
theorem cut_iff (text : List Char) (pieces : List (List Char)) :
    Cut text pieces ↔ (read text).pieces = pieces := by
  have sound : ∀ pieces, Cut text pieces → (read text).pieces = pieces := by
    intro pieces cut
    cases cut with
    | outside outside isOpen => exact pieces_read_open (read_outside outside) isOpen
    | url outside named inside isOpen =>
      rw [List.append_cons, ← List.append_assoc]
      exact pieces_read_open (read_urlBody (read_url (read_outside outside) named) inside) isOpen
  constructor
  · exact sound pieces
  · rintro rfl
    obtain ⟨pieces, cut⟩ := exists_cut text
    rwa [sound pieces cut]

theorem existsUnique_cut (text : List Char) : ∃! pieces, Cut text pieces :=
  ⟨(read text).pieces, (cut_iff text _).mpr rfl, fun pieces cut => ((cut_iff text pieces).mp cut).symm⟩

example : (read "URL('a)' ,b) ,\"c\\\"\" ,url('d".toList).pieces =
    ["'a)'".toList, "URL('a)' ,b)".toList, "\"c\\\"\"".toList] := by
  decide

namespace Reading

def IsOutside (r : Reading) : Prop := r.string = none ∧ r.url = none

theorem next_blank (r : Reading) (name : Option (List Char)) {c : Char} (blank : isBlank c = true) :
    (r.next name c).pieces = r.pieces ∧
      (r.IsOutside ∨ (r.next name c).IsOutside → r.next name c = r) := by
  have mark (mark : Mark) : c ≠ mark.char := ne_of_isBlank blank (by cases mark <;> decide)
  have opening : c ≠ '(' := ne_of_isBlank blank (by decide)
  have closing : c ≠ ')' := ne_of_isBlank blank (by decide)
  have backslash : c ≠ '\\' := ne_of_isBlank blank (by decide)
  obtain ⟨pieces, url, string, escaped⟩ := r
  cases string with
  | some string => cases escaped <;> simp [next, IsOutside, mark, backslash]
  | none =>
    have unmarked : mark? c = none := (mark?_eq_none_iff c).mpr mark
    cases url <;> simp [next, IsOutside, unmarked, opening, closing]

end Reading

theorem reading_blank_cons {c : Char} {text : List Char} (blank : isBlank c = true)
    (outside : (reading text).IsOutside ∨ (reading (c :: text)).IsOutside) :
    reading (c :: text) = reading text :=
  ((reading text).next_blank _ blank).2 outside

theorem pieces_reading_blanks_append {blanks : List Char} (blank : Blanks blanks) (text : List Char) :
    (reading (blanks ++ text)).pieces = (reading text).pieces := by
  induction blanks with
  | nil => rfl
  | cons c blanks ih =>
    obtain ⟨first, others⟩ := (blanks_cons_iff c blanks).mp blank
    exact ((reading (blanks ++ text)).next_blank _ first).1.trans (ih others)

def Stopped (text : List Char) : Prop := ∀ c ∈ text.head?, c.toLower ∉ ['u', 'r', 'l']

theorem stopped_of_blank {c : Char} (blank : isBlank c = true) (text : List Char) : Stopped (c :: text) := by
  rintro d first letter
  obtain rfl := Option.some.inj first
  rw [← isBlank_toLower] at blank
  simp only [List.mem_cons, List.not_mem_nil, or_false] at letter
  rcases letter with letter | letter | letter
  all_goals simp [letter, isBlank] at blank

-- Three characters are the name, so only a text shorter than that leaves room for what stands behind it.
theorem urlName?_append_stopped (more : List Char) {text : List Char} (stopped : Stopped text) :
    urlName? (more ++ text) = urlName? more := by
  cases text with
  | nil => rw [List.append_nil]
  | cons c rest =>
    have other : c.toLower ∉ ['u', 'r', 'l'] := stopped c rfl
    simp only [List.mem_cons, List.not_mem_nil, or_false, not_or] at other
    obtain ⟨u, r, l⟩ := other
    match more with
    | [] => cases rest with
      | nil => rfl
      | cons b rest => cases rest <;> simp [urlName?, lower, l]
    | [a] => cases rest <;> simp [urlName?, lower, r]
    | [a, b] => simp [urlName?, lower, u]
    | _ :: _ :: _ :: _ => rfl

def Alike (first second : List Char) : Prop :=
  ∀ more, reading (more ++ first) = reading (more ++ second)

theorem Alike.cons {first second : List Char} (alike : Alike first second) (c : Char) :
    Alike (c :: first) (c :: second) := by
  intro more
  simpa using alike (more ++ [c])

theorem alike_of_stopped {first second : List Char} (stopped : Stopped first) (stopped' : Stopped second)
    (same : reading first = reading second) : Alike first second := by
  intro more
  induction more with
  | nil => exact same
  | cons c more ih =>
    simp only [List.cons_append, reading, ih, urlName?_append_stopped more stopped,
      urlName?_append_stopped more stopped']

theorem reading_blanks {blanks : List Char} (blank : Blanks blanks) : reading blanks = reading [] := by
  induction blanks with
  | nil => rfl
  | cons c blanks ih =>
    obtain ⟨first, others⟩ := (blanks_cons_iff c blanks).mp blank
    have outside : (reading blanks).IsOutside := by
      rw [ih others]
      exact ⟨rfl, rfl⟩
    exact (reading_blank_cons first (.inl outside)).trans (ih others)

theorem pieces_read_trim (text : List Char) : (read (trim text)).pieces = (read text).pieces := by
  obtain ⟨before, blankBefore, front⟩ := exists_trimLeft text
  obtain ⟨after, blankAfter, back⟩ := exists_trimRight (trimLeft text)
  have blankFront : Blanks before.reverse := by simpa [Blanks] using blankBefore
  have blankBack : Blanks after.reverse := by simpa [Blanks] using blankAfter
  have stopped : Stopped before.reverse := by
    cases split : before.reverse with
    | nil => simp [Stopped]
    | cons c rest => exact stopped_of_blank (blankFront c (by simp [split])) rest
  have alike : Alike before.reverse [] :=
    alike_of_stopped stopped (by simp [Stopped]) (reading_blanks blankFront)
  calc (read (trim text)).pieces
    _ = (reading (trim text).reverse).pieces := rfl
    _ = (reading ((trim text).reverse ++ before.reverse)).pieces := by rw [alike, List.append_nil]
    _ = (reading (after.reverse ++ ((trim text).reverse ++ before.reverse))).pieces :=
      (pieces_reading_blanks_append blankBack _).symm
    _ = (read text).pieces := by
      rw [read, trim, ← List.reverse_append, ← List.reverse_append, List.append_assoc, ← back, ← front]

end DesignTokens.Text
