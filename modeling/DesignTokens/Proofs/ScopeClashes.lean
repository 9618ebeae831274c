import DesignTokens.Check.Themes
import DesignTokens.Proofs.PropertyNames

set_option autoImplicit false

namespace DesignTokens

open OrderedMap ShortName

namespace Flat

variable {tokens : Group} {settings : Settings} {T : NameTable} {c : Compilation}

theorem mem_shorts_iff_count (flat : Flat tokens settings T c) (short : String) :
    short ∈ c.shorts ↔
      ∃ count < c.nameEntries.length, short = "--" ++ ofCount settings.scope count := by
  have size : T.entries.length = T.size := by simp [NameTable.entries, NameTable.size]
  rw [Compilation.shorts, flat.nameEntries_eq, T.mem_shorts_iff, size]
  simp only [NameTable.property, flat.scope]

theorem mem_authored (flat : Flat tokens settings T c) {entry : String × String}
    (member : entry ∈ c.nameEntries) : entry.2 ∈ tokens.authored settings := by
  rw [flat.nameEntries_eq] at member
  obtain ⟨⟨name, count⟩, placed, rfl⟩ := List.mem_map.mp member
  rw [← List.mem_eraseDups, ← flat.authored]
  exact List.mem_of_getElem? (List.mem_zipIdx_iff_getElem?.mp placed)

end Flat

namespace Check

theorem clashes_eq_nil_iff (first second : Compilation) (distinct : Distinct second.nameEntries) :
    clashes first second = [] ↔
      ∀ short a b, (short, a) ∈ first.nameEntries → (short, b) ∈ second.nameEntries → a = b := by
  unfold clashes
  rw [List.map_eq_nil_iff, List.filter_eq_nil_iff]
  constructor
  · intro silent short a b own other
    have found := (get?_eq_some_iff _ distinct short b).mpr other
    have agrees := silent (short, a) own
    simp only [found, bne_iff_ne, ne_eq, Decidable.not_not] at agrees
    exact agrees.symm
  · rintro agree ⟨short, a⟩ own
    cases found : get? second.nameEntries short with
    | none => simp [found]
    | some b =>
      have other := (get?_eq_some_iff _ distinct short b).mp found
      simp [found, agree short a b own other]

theorem names_two (first second : NamedTheme) :
    names [first, second] = [] ↔ clashes first.compilation second.compilation = [] := by
  cases found : clashes first.compilation second.compilation <;> simp [names, pair, found]

end Check

theorem shares_iff_counts {first second : Group} {s t : Settings} {c d : Compilation}
    (compiledFirst : compile first s = .ok c) (compiledSecond : compile second t = .ok d) :
    (∃ short ∈ c.shorts, short ∈ d.shorts) ↔
      ∃ i < c.nameEntries.length, ∃ j < d.nameEntries.length,
        ofCount s.scope i = ofCount t.scope j := by
  obtain ⟨T, flatFirst⟩ := flat_of_compile compiledFirst
  obtain ⟨U, flatSecond⟩ := flat_of_compile compiledSecond
  simp only [flatFirst.mem_shorts_iff_count, flatSecond.mem_shorts_iff_count]
  constructor
  · rintro ⟨short, ⟨i, hi, rfl⟩, ⟨j, hj, same⟩⟩
    exact ⟨i, hi, j, hj, by simpa using same⟩
  · rintro ⟨i, hi, j, hj, same⟩
    exact ⟨_, ⟨i, hi, rfl⟩, ⟨j, hj, by rw [same]⟩⟩

/--
Themes of two scopes share a short name exactly where one scope goes on from the other with a word of
letters and the theme of the shorter scope has counted up to that word. The check is silent exactly
where every shared name stands for one property.
-/
theorem scopes_share_iff (first second : Group) (s t : Settings) (c d : Compilation)
    (u v : String) (scopeFirst : s.scope = some u) (scopeSecond : t.scope = some v)
    (different : u ≠ v) (compiledFirst : compile first s = .ok c)
    (compiledSecond : compile second t = .ok d) :
    ((∃ short ∈ c.shorts, short ∈ d.shorts) ↔
      (∃ w, GoesOn u v w ∧ 10 * Letters.rank w < c.nameEntries.length ∧
        0 < d.nameEntries.length) ∨
      ∃ w, GoesOn v u w ∧ 10 * Letters.rank w < d.nameEntries.length ∧
        0 < c.nameEntries.length) ∧
    ∀ one two, Check.names [⟨one, c⟩, ⟨two, d⟩] = [] ↔
      ∀ short a b, (short, a) ∈ c.nameEntries → (short, b) ∈ d.nameEntries → a = b := by
  constructor
  · rw [shares_iff_counts compiledFirst compiledSecond, scopeFirst, scopeSecond]
    exact shared_iff u v different _ _
  · intro one two
    obtain ⟨U, flat⟩ := flat_of_compile compiledSecond
    have distinct : Distinct d.nameEntries := by
      rw [flat.nameEntries_eq]
      exact U.distinct_entries flat.distinct
    rw [Check.names_two]
    exact Check.clashes_eq_nil_iff c d distinct

def Group.numbered (count : Nat) : Group :=
  (List.range count).map fun i => ("p" ++ toString i, .scalar (.text "1px"))

def Settings.scoped (scope : String) : Settings := ⟨none, some scope, []⟩

-- The eleventh name of the scope a is the first of the scope aa, and the check says so.
theorem scopes_share_sample :
    isIdentifier "a" = true ∧ isIdentifier "aa" = true ∧ "a" ≠ "aa" ∧ ∃ c d,
      compile (.numbered 11) (.scoped "a") = .ok c ∧
      compile [("q", .scalar (.text "2px"))] (.scoped "aa") = .ok d ∧
      (∃ short ∈ c.shorts, short ∈ d.shorts) ∧
      Check.names [⟨"one", c⟩, ⟨"two", d⟩] ≠ [] := by
  obtain ⟨c, compiledFirst⟩ :=
    exists_of_isOk (.numbered 11) (.scoped "a") (by decide +kernel)
  obtain ⟨d, compiledSecond⟩ :=
    exists_of_isOk [("q", .scalar (.text "2px"))] (.scoped "aa") (by decide +kernel)
  obtain ⟨T, flatFirst⟩ := flat_of_compile compiledFirst
  obtain ⟨U, flatSecond⟩ := flat_of_compile compiledSecond
  have many : c.nameEntries.length = 11 :=
    flatFirst.length_nameEntries.trans (by decide +kernel)
  have one : d.nameEntries.length = 1 :=
    flatSecond.length_nameEntries.trans (by decide +kernel)
  obtain ⟨share, check⟩ := scopes_share_iff _ _ _ _ c d "a" "aa" rfl rfl (by decide)
    compiledFirst compiledSecond
  have shared : ∃ short ∈ c.shorts, short ∈ d.shorts := by
    have spelled : Letters.Spelled ['a'] := by
      intro letter member
      obtain rfl : letter = 'a' := by simpa using member
      decide
    refine share.mpr (.inl ⟨['a'], ⟨by decide, spelled, by decide⟩, ?_, by omega⟩)
    rw [many]
    decide
  refine ⟨by decide, by decide, by decide, c, d, compiledFirst, compiledSecond, shared, ?_⟩
  intro silent
  obtain ⟨short, inFirst, inSecond⟩ := shared
  obtain ⟨⟨_, a⟩, own, rfl⟩ := List.mem_map.mp inFirst
  obtain ⟨⟨_, b⟩, other, rfl⟩ := List.mem_map.mp inSecond
  obtain rfl := (check "one" "two").mp silent _ a b own other
  have apart : ∀ name ∈ (Group.numbered 11).authored (.scoped "a"),
      name ∉ Group.authored [("q", .scalar (.text "2px"))] (.scoped "aa") := by decide +kernel
  exact apart a (flatFirst.mem_authored own) (flatSecond.mem_authored other)

end DesignTokens
