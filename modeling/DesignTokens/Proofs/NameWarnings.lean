import DesignTokens.Proofs.Layout
import DesignTokens.Proofs.ScopeClashes
import Mathlib.Data.List.Pairwise
import Mathlib.Data.List.Range

set_option autoImplicit false

namespace DesignTokens

open OrderedMap ShortName

def Compilation.IsCompiled (c : Compilation) : Prop :=
  ∃ tokens settings, compile tokens settings = .ok c

theorem Compilation.IsCompiled.distinct {c : Compilation} (compiled : c.IsCompiled) :
    Distinct c.nameEntries := by
  obtain ⟨tokens, settings, compiled⟩ := compiled
  obtain ⟨T, flat⟩ := flat_of_compile compiled
  rw [flat.nameEntries_eq]
  exact T.distinct_entries flat.distinct

namespace Check

def Gives (themes : List NamedTheme) (short name : String) : Prop :=
  ∃ n ∈ themes, (short, name) ∈ n.compilation.nameEntries

def Clash (first second : NamedTheme) : Prop :=
  ∃ short a b, (short, a) ∈ first.compilation.nameEntries ∧
    (short, b) ∈ second.compilation.nameEntries ∧ a ≠ b

theorem Clash.symm {first second : NamedTheme} (clash : Clash first second) :
    Clash second first := by
  obtain ⟨short, a, b, own, other, apart⟩ := clash
  exact ⟨short, b, a, other, own, apart.symm⟩

theorem not_clash_self {n : NamedTheme} (compiled : n.compilation.IsCompiled) : ¬ Clash n n := by
  rintro ⟨short, a, b, own, other, apart⟩
  rw [← get?_eq_some_iff _ compiled.distinct] at own other
  rw [own] at other
  exact apart (Option.some.inj other)

theorem pair_eq_nil_iff {first second : NamedTheme} (compiled : second.compilation.IsCompiled) :
    pair first second = [] ↔ ¬ Clash first second := by
  have silent : pair first second = [] ↔ clashes first.compilation second.compilation = [] := by
    unfold pair
    cases clashes first.compilation second.compilation <;> simp
  rw [silent, clashes_eq_nil_iff _ _ compiled.distinct]
  unfold Clash
  push Not
  exact ⟨fun agree short a b own other => agree short a b own other, fun agree => agree⟩

theorem length_pair (first second : NamedTheme) : (pair first second).length ≤ 1 := by
  unfold pair
  split <;> simp

def warningAt (themes : List NamedTheme) (p : Nat × Nat) : Report :=
  match themes[p.1]?, themes[p.2]? with
  | some first, some second => pair first second
  | _, _ => []

def positionPairs (count : Nat) : List (Nat × Nat) :=
  (List.range count).flatMap fun i => ((List.range count).filter (i < ·)).map fun j => (i, j)

theorem mem_positionPairs (count i j : Nat) :
    (i, j) ∈ positionPairs count ↔ i < j ∧ j < count := by
  simp [positionPairs]
  omega

theorem positionPairs_sorted (count : Nat) :
    (positionPairs count).Pairwise (Prod.Lex (· < ·) (· < ·)) := by
  rw [positionPairs, List.pairwise_flatMap]
  constructor
  · intro i _
    rw [List.pairwise_map]
    exact (List.pairwise_lt_range.filter _).imp fun earlier => Prod.Lex.right _ earlier
  · refine List.pairwise_lt_range.imp fun earlier p own q other => ?_
    obtain ⟨_, _, rfl⟩ := List.mem_map.mp own
    obtain ⟨_, _, rfl⟩ := List.mem_map.mp other
    exact Prod.Lex.left _ _ earlier

theorem flatMap_eq_range {α β : Type} (l : List α) (f : α → List β) :
    l.flatMap f = (List.range l.length).flatMap fun i => (l[i]?.map f).getD [] := by
  induction l with
  | nil => rfl
  | cons a rest ih => simp [List.range_succ_eq_map, List.flatMap_map, ih]

theorem positionPairs_succ (count : Nat) :
    positionPairs (count + 1) = (List.range count).map (fun j => (0, j + 1)) ++
      (positionPairs count).map fun p => (p.1 + 1, p.2 + 1) := by
  simp [positionPairs, List.range_succ_eq_map, List.filter_map, List.flatMap_map, List.map_flatMap,
    Function.comp_def]

theorem names_eq (themes : List NamedTheme) :
    names themes = (positionPairs themes.length).flatMap (warningAt themes) := by
  induction themes with
  | nil => rfl
  | cons first rest ih =>
    have own (j : Nat) : warningAt (first :: rest) (0, j + 1) = (rest[j]?.map (pair first)).getD [] := by
      simp only [warningAt, List.getElem?_cons_zero, List.getElem?_cons_succ]
      cases rest[j]? <;> rfl
    have others (p : Nat × Nat) : warningAt (first :: rest) (p.1 + 1, p.2 + 1) = warningAt rest p := by
      simp only [warningAt, List.getElem?_cons_succ]
    rw [names, ih, List.length_cons, positionPairs_succ, List.flatMap_append, List.flatMap_map,
      List.flatMap_map, flatMap_eq_range]
    simp only [own, others]

theorem forall₂_flatMap {α β : Type} (l : List α) (f : α → List β) (few : ∀ a, (f a).length ≤ 1) :
    List.Forall₂ (fun a b => f a = [b]) (l.filter fun a => !(f a).isEmpty) (l.flatMap f) := by
  induction l with
  | nil => exact .nil
  | cons a rest ih =>
    have short := few a
    rw [List.flatMap_cons, List.filter_cons]
    cases given : f a with
    | nil => simpa using ih
    | cons b more =>
      rw [given, List.length_cons] at short
      obtain rfl : more = [] := List.eq_nil_of_length_eq_zero (by omega)
      simpa [given] using ih

theorem length_warningAt (themes : List NamedTheme) (p : Nat × Nat) :
    (warningAt themes p).length ≤ 1 := by
  unfold warningAt
  split
  next => exact length_pair ..
  next => simp

theorem warningAt_ne_nil_iff {themes : List NamedTheme}
    (compiled : ∀ n ∈ themes, n.compilation.IsCompiled) (i j : Nat) :
    warningAt themes (i, j) ≠ [] ↔ ∃ first second, themes[i]? = some first ∧
      themes[j]? = some second ∧ Clash first second := by
  unfold warningAt
  cases themes[i]? with
  | none => simp
  | some first =>
    cases found : themes[j]? with
    | none => simp
    | some second =>
      have listed : second ∈ themes := List.mem_of_getElem? found
      simp [pair_eq_nil_iff (compiled second listed)]

theorem names_eq_nil_iff {themes : List NamedTheme}
    (compiled : ∀ n ∈ themes, n.compilation.IsCompiled) :
    names themes = [] ↔ themes.Pairwise fun first second => ¬ Clash first second := by
  induction themes with
  | nil => simp [names]
  | cons first rest ih =>
    have others := ih fun n later => compiled n (List.mem_cons_of_mem _ later)
    have silent : (∀ n ∈ rest, pair first n = []) ↔ ∀ n ∈ rest, ¬ Clash first n :=
      forall₂_congr fun n later => pair_eq_nil_iff (compiled n (List.mem_cons_of_mem _ later))
    rw [names, List.append_eq_nil_iff, List.flatMap_eq_nil_iff, silent, others, List.pairwise_cons]

theorem pairwise_iff_function {themes : List NamedTheme}
    (compiled : ∀ n ∈ themes, n.compilation.IsCompiled) :
    (themes.Pairwise fun first second => ¬ Clash first second) ↔
      ∀ short a b, Gives themes short a → Gives themes short b → a = b := by
  constructor
  · rintro apart short a b ⟨n, listed, own⟩ ⟨m, listed', other⟩
    have symmetric : Std.Symm fun first second : NamedTheme => ¬ Clash first second :=
      ⟨fun first second quiet clash => quiet clash.symm⟩
    have quiet := apart.forall_of_forall (fun n member => not_clash_self (compiled n member)) listed listed'
    by_contra differ
    exact quiet ⟨short, a, b, own, other, differ⟩
  · intro function
    refine List.pairwise_of_forall_mem_list fun n listed m listed' => ?_
    rintro ⟨short, a, b, own, other, apart⟩
    exact apart (function short a b ⟨n, listed, own⟩ ⟨m, listed', other⟩)

end Check

/--
Nothing is reported exactly where all themes together give each short name to one property. Otherwise each
pair of themes that disagrees about a short name has one warning, and the pairs come in order.
-/
theorem names_warn_of_clashes (themes : List Check.NamedTheme)
    (compiled : ∀ n ∈ themes, n.compilation.IsCompiled) :
    (Check.names themes = [] ↔
      ∀ short a b, Check.Gives themes short a → Check.Gives themes short b → a = b) ∧
    ∃ pairs : List (Nat × Nat), pairs.Pairwise (Prod.Lex (· < ·) (· < ·)) ∧
      (∀ i j, (i, j) ∈ pairs ↔ i < j ∧ ∃ first second, themes[i]? = some first ∧
        themes[j]? = some second ∧ Check.Clash first second) ∧
      List.Forall₂ (fun p finding => ∃ first second, themes[p.1]? = some first ∧
        themes[p.2]? = some second ∧ Check.pair first second = [finding])
        pairs (Check.names themes) := by
  refine ⟨(Check.names_eq_nil_iff compiled).trans (Check.pairwise_iff_function compiled),
    (Check.positionPairs themes.length).filter fun p => !(Check.warningAt themes p).isEmpty,
    (Check.positionPairs_sorted _).filter _, ?_, ?_⟩
  · intro i j
    have warned : (!(Check.warningAt themes (i, j)).isEmpty) = true ↔
        Check.warningAt themes (i, j) ≠ [] := by simp
    rw [List.mem_filter, warned, Check.warningAt_ne_nil_iff compiled, Check.mem_positionPairs]
    constructor
    · rintro ⟨⟨earlier, _⟩, clash⟩
      exact ⟨earlier, clash⟩
    · rintro ⟨earlier, first, second, own, other, clash⟩
      exact ⟨⟨earlier, (List.getElem?_eq_some_iff.mp other).1⟩, first, second, own, other, clash⟩
  · rw [Check.names_eq]
    refine (Check.forall₂_flatMap _ _ (Check.length_warningAt themes)).imp fun p finding given => ?_
    unfold Check.warningAt at given
    split at given
    next first second own other => exact ⟨first, second, own, other, given⟩
    next => simp at given

def Group.colored (keys : List String) : Group := keys.map fun key => (key, .scalar (.text "white"))

theorem compile_colored {keys : List String} {settings : Settings}
    (sound : (Group.colored keys).fault? settings = none) :
    compile (Group.colored keys) settings = .ok ((Group.colored keys).layout settings) := by
  rw [compile_eq_layout, sound]

namespace Check

def NamedTheme.colored (name : String) (keys : List String) : NamedTheme :=
  ⟨name, (Group.colored keys).layout .plain⟩

def threeThemes : List NamedTheme :=
  [.colored "light" ["bg"], .colored "bare" [], .colored "dark" ["fg"]]

end Check

-- The second theme has no names, and the others share their first.
theorem names_warn_of_clashes_apart :
    (∀ n ∈ Check.threeThemes, n.compilation.IsCompiled) ∧ Check.names Check.threeThemes ≠ [] ∧
      ∃ pairs : List (Nat × Nat), (0, 2) ∈ pairs ∧ (0, 1) ∉ pairs ∧ (1, 2) ∉ pairs ∧
        List.Forall₂ (fun p finding => ∃ first second, Check.threeThemes[p.1]? = some first ∧
          Check.threeThemes[p.2]? = some second ∧ Check.pair first second = [finding])
          pairs (Check.names Check.threeThemes) := by
  have compiled : ∀ n ∈ Check.threeThemes, n.compilation.IsCompiled := by
    intro n member
    simp only [Check.threeThemes, List.mem_cons, List.not_mem_nil, or_false] at member
    rcases member with rfl | rfl | rfl
    · exact ⟨_, _, compile_colored (by decide +kernel)⟩
    · exact ⟨_, _, compile_colored (by decide +kernel)⟩
    · exact ⟨_, _, compile_colored (by decide +kernel)⟩
  obtain ⟨silent, pairs, -, listed, warnings⟩ := names_warn_of_clashes Check.threeThemes compiled
  have clash : Check.Clash (.colored "light" ["bg"]) (.colored "dark" ["fg"]) :=
    ⟨"--a0", "--bg", "--fg", by decide +kernel, by decide +kernel, by decide⟩
  have bare : (Check.NamedTheme.colored "bare" []).compilation.nameEntries = [] := by decide +kernel
  have warned : (0, 2) ∈ pairs := (listed 0 2).mpr ⟨by decide, _, _, rfl, rfl, clash⟩
  refine ⟨compiled, ?_, pairs, warned, ?_, ?_, warnings⟩
  · intro quiet
    obtain ⟨short, a, b, own, other, differ⟩ := clash
    exact differ (silent.mp quiet short a b ⟨_, by simp [Check.threeThemes], own⟩
      ⟨_, .tail _ (.tail _ (.head _)), other⟩)
  · intro member
    obtain ⟨-, first, second, -, own, short, a, b, -, other, -⟩ := (listed 0 1).mp member
    obtain rfl := Option.some.inj own
    simp [bare] at other
  · intro member
    obtain ⟨-, first, second, own, -, short, a, b, other, -⟩ := (listed 1 2).mp member
    obtain rfl := Option.some.inj own
    simp [bare] at other

def Compilation.authoredNames (c : Compilation) : List String := c.nameEntries.map Prod.snd

def differences (first second : List String) : List Nat :=
  (List.range (min first.length second.length)).filter fun k => first[k]? != second[k]?

theorem differences_eq_nil_iff (first second : List String) :
    differences first second = [] ↔ first <+: second ∨ second <+: first := by
  have agree : differences first second = [] ↔
      ∀ k < min first.length second.length, first[k]? = second[k]? := by
    simp [differences, List.filter_eq_nil_iff]
  rw [agree]
  constructor
  · intro same
    rcases le_total first.length second.length with shorter | shorter
    · refine .inl (List.prefix_iff_getElem?.mpr fun k inside => ?_)
      rw [← same k (by omega), List.getElem?_eq_getElem inside]
    · refine .inr (List.prefix_iff_getElem?.mpr fun k inside => ?_)
      rw [same k (by omega), List.getElem?_eq_getElem inside]
  · rintro (⟨more, rfl⟩ | ⟨more, rfl⟩) k inside
    · rw [List.getElem?_append_left (by omega)]
    · rw [List.getElem?_append_left (by omega)]

theorem filter_range_min {m n : Nat} {q : Nat → Bool} (bound : ∀ k, q k = true → k < n) :
    (List.range m).filter q = (List.range (min m n)).filter q := by
  rcases le_total m n with shorter | longer
  · rw [min_eq_left shorter]
  · obtain ⟨rest, rfl⟩ := Nat.exists_eq_add_of_le longer
    have noneBeyond : ((List.range rest).map (n + ·)).filter q = [] := by
      rw [List.filter_eq_nil_iff]
      intro k member kept
      obtain ⟨j, _, rfl⟩ := List.mem_map.mp member
      have inside := bound _ kept
      omega
    rw [min_eq_right longer, List.range_add, List.filter_append, noneBeyond, List.append_nil]

namespace NameTable

theorem get?_entries (t : NameTable) (distinct : t.authored.Nodup) (count : Nat) :
    get? t.entries (t.property count) = t.authored[count]? := by
  apply Option.ext
  intro name
  rw [get?_eq_some_iff _ (t.distinct_entries distinct), mem_entries_iff]
  constructor
  · rintro ⟨other, found, same⟩
    rwa [← t.property_injective _ _ same]
  · intro found
    exact ⟨count, found, rfl⟩

end NameTable

theorem Check.clashes_of_sameScope {T U : NameTable} {c d : Compilation}
    (own : c.nameEntries = T.entries) (other : d.nameEntries = U.entries)
    (sameScope : T.scope = U.scope) (distinct : U.authored.Nodup) :
    clashes c d = (differences T.authored U.authored).map T.property := by
  have property : T.property = U.property := funext fun count => by
    rw [NameTable.property, NameTable.property, sameScope]
  let q (count : Nat) : Bool := U.authored[count]?.any fun name => some name != T.authored[count]?
  have bound : ∀ count, q count = true → count < U.authored.length := by
    intro count clash
    cases given : U.authored[count]? with
    | none => simp [q, given] at clash
    | some name => exact (List.getElem?_eq_some_iff.mp given).1
  have within : (List.range T.authored.length).filter q = differences T.authored U.authored := by
    rw [filter_range_min bound, differences]
    refine List.filter_congr fun count member => ?_
    have inside : count < U.authored.length := by
      have small := List.mem_range.mp member
      omega
    simp [q, List.getElem?_eq_getElem inside, bne, Bool.beq_comm]
  rw [← within, List.range_eq_range', ← List.zipIdx_map_snd, List.filter_map, List.map_map, clashes,
    own, NameTable.entries, List.filter_map, List.map_map]
  refine congrArg (List.map _) (List.filter_congr fun n member => ?_)
  have found := List.mem_zipIdx_iff_getElem?.mp member
  simp only [Function.comp_apply, other, property, U.get?_entries distinct]
  cases given : U.authored[n.2]? <;> simp [q, found, given, bne]

namespace Flat

variable {tokens : Group} {settings : Settings} {T : NameTable} {c : Compilation}

theorem authoredNames_eq (flat : Flat tokens settings T c) : c.authoredNames = T.authored := by
  simp [Compilation.authoredNames, flat.nameEntries_eq, NameTable.entries, Function.comp_def]

theorem getElem?_shorts (flat : Flat tokens settings T c) {count : Nat}
    (inside : count < c.authoredNames.length) : c.shorts[count]? = some (T.property count) := by
  rw [flat.authoredNames_eq] at inside
  simp [Compilation.shorts, flat.nameEntries_eq, NameTable.entries, inside]

end Flat

/--
Two themes of one scope are silent exactly where the names of one, in order, are an initial part of the
other's. Otherwise they have one warning, which counts the positions at which they differ and shows the short
name of the first.
-/
theorem sameScope_warning (first second : Group) (s t : Settings) (c d : Compilation)
    (sameScope : s.scope = t.scope) (compiledFirst : compile first s = .ok c)
    (compiledSecond : compile second t = .ok d) (one two : String) :
    (Check.names [⟨one, c⟩, ⟨two, d⟩] = [] ↔
      c.authoredNames <+: d.authoredNames ∨ d.authoredNames <+: c.authoredNames) ∧
    (¬ (c.authoredNames <+: d.authoredNames ∨ d.authoredNames <+: c.authoredNames) →
      ∃ count short, (differences c.authoredNames d.authoredNames).head? = some count ∧
        c.shorts[count]? = some short ∧ d.shorts[count]? = some short ∧
        Check.names [⟨one, c⟩, ⟨two, d⟩] =
          [Check.sharedNames one two (differences c.authoredNames d.authoredNames).length short]) := by
  obtain ⟨T, flatFirst⟩ := flat_of_compile compiledFirst
  obtain ⟨U, flatSecond⟩ := flat_of_compile compiledSecond
  have tableScope : T.scope = U.scope := by rw [flatFirst.scope, flatSecond.scope, sameScope]
  have property : U.property = T.property := funext fun count => by
    rw [NameTable.property, NameTable.property, tableScope]
  have clashes : Check.clashes c d =
      (differences c.authoredNames d.authoredNames).map T.property := by
    rw [flatFirst.authoredNames_eq, flatSecond.authoredNames_eq]
    exact Check.clashes_of_sameScope flatFirst.nameEntries_eq flatSecond.nameEntries_eq tableScope
      flatSecond.distinct
  rw [← differences_eq_nil_iff]
  constructor
  · rw [Check.names_two, clashes, List.map_eq_nil_iff]
  · intro differ
    cases found : differences c.authoredNames d.authoredNames with
    | nil => exact absurd found differ
    | cons count more =>
      have listed : count ∈ differences c.authoredNames d.authoredNames := by simp [found]
      have inside : count < min c.authoredNames.length d.authoredNames.length :=
        List.mem_range.mp (List.mem_filter.mp listed).1
      refine ⟨count, T.property count, rfl, flatFirst.getElem?_shorts (by omega), ?_, ?_⟩
      · rw [flatSecond.getElem?_shorts (by omega), property]
      · rw [found] at clashes
        simp [Check.names, Check.pair, clashes]

theorem sameScope_warning_twice :
    ∃ c d, compile (.colored ["bg", "fg", "link"]) (.scoped "d") = .ok c ∧
      compile (.colored ["bg", "text", "line", "mark"]) (.scoped "d") = .ok d ∧
      ¬ (c.authoredNames <+: d.authoredNames ∨ d.authoredNames <+: c.authoredNames) ∧
      Check.names [⟨"light", c⟩, ⟨"dark", d⟩] = [{
        severity := .warning
        code := "dstokens::validate::name-collision"
        message := "Themes 'light' and 'dark' share 2 minified name(s) for different properties " ++
          "(first: --d1)"
        help := some "Give each theme a distinct \x60scope\x60 before concatenating their CSS" }] := by
  have compiledFirst : compile (.colored ["bg", "fg", "link"]) (.scoped "d") = .ok _ :=
    compile_colored (by decide +kernel)
  have compiledSecond : compile (.colored ["bg", "text", "line", "mark"]) (.scoped "d") = .ok _ :=
    compile_colored (by decide +kernel)
  refine ⟨_, _, compiledFirst, compiledSecond, by decide +kernel, ?_⟩
  obtain ⟨count, short, first, own, -, warning⟩ := (sameScope_warning _ _ _ _ _ _ rfl compiledFirst
    compiledSecond "light" "dark").2 (by decide +kernel)
  rw [warning]
  have positions : differences
      ((Group.colored ["bg", "fg", "link"]).layout (.scoped "d")).authoredNames
      ((Group.colored ["bg", "text", "line", "mark"]).layout (.scoped "d")).authoredNames =
        [1, 2] := by decide +kernel
  rw [positions] at first ⊢
  obtain rfl : 1 = count := Option.some.inj first
  have shown : ((Group.colored ["bg", "fg", "link"]).layout (.scoped "d")).shorts[1]? =
      some "--d1" := by decide +kernel
  obtain rfl := Option.some.inj (shown.symm.trans own)
  rfl

end DesignTokens
