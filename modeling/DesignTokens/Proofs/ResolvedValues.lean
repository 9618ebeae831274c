import DesignTokens.Proofs.DeclaredNames
import DesignTokens.Proofs.PropertyNames

set_option autoImplicit false

namespace DesignTokens

open OrderedMap

def Sheet.rootValue (s : Sheet) (name : String) : Except Fault String :=
  match get? s.root name with
  | some value => .ok value
  | none => .error (.noValue name)

theorem Sheet.rootValue_eq_ok_iff (s : Sheet) (name value : String) :
    s.rootValue name = .ok value ↔ get? s.root name = some value := by
  unfold rootValue
  cases get? s.root name <;> simp

theorem Reference.resolve_of_root {s : Sheet} {name value : String}
    (named : VarCall.WellNamed name) (fallback : Option String)
    (declared : get? s.root name = some value) :
    resolve s (VarCall.mk name fallback).write = .ok value := by
  unfold resolve
  rw [VarCall.read?_write _ named]
  simp [VarCall.normalized, declared]

theorem Reference.resolve_of_absent {s : Sheet} {name : String} (named : VarCall.WellNamed name)
    (absent : get? s.root name = none) :
    resolve s (VarCall.mk name none).write = .error (.noValue name) := by
  unfold resolve
  rw [VarCall.read?_write _ named]
  simp [VarCall.normalized, absent]

namespace Flat

variable {tokens : Group} {settings : Settings} {T : NameTable} {c : Compilation}

theorem exists_rootValue_iff (flat : Flat tokens settings T c) {l : Leaf}
    (member : l ∈ tokens.leaves) :
    (∃ value, c.sheet.rootValue (T.nameOf (l.authored settings)) = .ok value) ↔
      ∃ other ∈ tokens.leaves, other.authored settings = l.authored settings ∧
        other.content.value? ≠ none := by
  simp only [Sheet.rootValue_eq_ok_iff, ← flat.mem_root_iff member, mem_keys_iff]

theorem resolve_eq (flat : Flat tokens settings T c) (valid : settings.HasValidScope)
    (mirrors : Mirrors settings c.short? [] tokens.outline c.references) {l : Leaf}
    {expression : String}
    (listed : (l.path, expression) ∈ Reference.leavesOf [] c.references) :
    Reference.resolve c.sheet expression =
      c.sheet.rootValue (T.nameOf (l.authored settings)) := by
  obtain ⟨own, inside, samePath, name, given, rfl⟩ := exists_leaf_of_reference mirrors listed
  have same : own.authored settings = l.authored settings :=
    congrArg (authoredName settings) samePath
  have named := flat.wellNamed valid given
  obtain rfl : T.nameOf (own.authored settings) = name :=
    Option.some.inj ((flat.short?_leaf inside).symm.trans given)
  rw [← same]
  cases root : get? c.sheet.root (T.nameOf (own.authored settings)) with
  | some value => simp only [Sheet.rootValue, root, Reference.resolve_of_root named _ root]
  | none =>
    -- Were the leaf to have a value, the root would.
    have valueless : own.content.value? = none := by
      by_contra value
      obtain ⟨_, declared⟩ := (flat.exists_rootValue_iff inside).mpr ⟨own, inside, rfl, value⟩
      simp [Sheet.rootValue_eq_ok_iff, root] at declared
    simp only [valueless, Sheet.rootValue, root, Reference.resolve_of_absent named root]

theorem redeclared_iff_leaf (flat : Flat tokens settings T c)
    (compiled : compile tokens settings = .ok c) :
    (∃ property previous value,
        .redeclared property previous value ∈ (compileNoting tokens settings).2) ↔
      ∃ l ∈ tokens.leaves, ∃ value, l.content.value? = some value ∧
        get? c.sheet.root (T.nameOf (l.authored settings)) ≠ some value := by
  have root : ofList (renamed T.nameOf (rootWrites settings tokens.leaves)) = c.sheet.root := by
    rw [flat.root, ofList_eq_lastWrites]
    exact lastWrites_writesOf (fun l member => flat.listed member) _
  rw [flat.redeclared_iff compiled, Ne, replacements_eq_nil_iff, root]
  push Not
  constructor
  · rintro ⟨w, written, differs⟩
    obtain ⟨v, placed, rfl⟩ := List.mem_map.mp written
    obtain ⟨l, member, name, value⟩ := mem_of_mem_writesOf placed
    exact ⟨l, member, v.2, value, name ▸ differs⟩
  · rintro ⟨l, member, value, own, differs⟩
    have written : (l.authored settings, value) ∈ rootWrites settings tokens.leaves :=
      List.mem_filterMap.mpr ⟨l, member, by simp [own]⟩
    exact ⟨_, List.mem_map_of_mem written, differs⟩

end Flat

/--
A reference of a compilation always reads back. It resolves to the root value of its property if any leaf
of that property has a value of its own, and to a complaint about that property if none has.
-/
theorem reference_resolves (tokens : Group) (settings : Settings) (c : Compilation)
    (valid : settings.HasValidScope) (compiled : compile tokens settings = .ok c)
    (path : List String) (expression : String)
    (listed : (path, expression) ∈ Reference.leavesOf [] c.references) :
    ∃ name, c.short? (authoredName settings path) = some name ∧
      ((∃ l ∈ tokens.leaves, l.authored settings = authoredName settings path ∧
          l.content.value? ≠ none) →
        ∃ value, get? c.sheet.root name = some value ∧
          Reference.resolve c.sheet expression = .ok value) ∧
      ((∀ l ∈ tokens.leaves, l.authored settings = authoredName settings path →
          l.content.value? = none) →
        Reference.resolve c.sheet expression = .error (.noValue name)) ∧
      ∀ fault, Reference.resolve c.sheet expression ≠ .error (.parse fault) := by
  obtain ⟨T, flat, mirrors⟩ := flat_mirrors_of_compile compiled
  obtain ⟨l, member, rfl, _⟩ := exists_leaf_of_reference mirrors listed
  have resolved := flat.resolve_eq valid mirrors listed
  have declared := flat.exists_rootValue_iff member
  refine ⟨_, flat.short?_leaf member, ?_, ?_, ?_⟩
  · intro valued
    obtain ⟨value, root⟩ := declared.mpr valued
    exact ⟨value, (Sheet.rootValue_eq_ok_iff _ _ _).mp root, resolved.trans root⟩
  · intro valueless
    cases root : get? c.sheet.root (T.nameOf (l.authored settings)) with
    | none => rw [resolved, Sheet.rootValue, root]
    | some value =>
      obtain ⟨other, listed, same, valued⟩ :=
        declared.mp ⟨value, (Sheet.rootValue_eq_ok_iff _ _ _).mpr root⟩
      exact absurd (valueless other listed same) valued
  · intro fault
    rw [resolved, Sheet.rootValue]
    split <;> simp

theorem Settings.sample_hasValidScope : Settings.sample.HasValidScope := by
  rintro scope given
  obtain rfl := Option.some.inj given
  decide

def Group.printOnly : Group := [("a", .list [.group [("print", .scalar (.text "0"))]])]

theorem reference_resolves_sample :
    (∃ c name value, Settings.sample.HasValidScope ∧ compile .sample .sample = .ok c ∧
      (["a-b"], "var(--d0, 1px)") ∈ Reference.leavesOf [] c.references ∧
      c.short? "--a-b" = some name ∧ get? c.sheet.root name = some value ∧
      Reference.resolve c.sheet "var(--d0, 1px)" = .ok value) ∧
    ∃ c name, compile .printOnly .sample = .ok c ∧
      (["a"], "var(--d0)") ∈ Reference.leavesOf [] c.references ∧
      c.short? "--a" = some name ∧
      Reference.resolve c.sheet "var(--d0)" = .error (.noValue name) := by
  constructor
  · obtain ⟨c, compiled⟩ := compile_sample
    have listed : (["a-b"], "var(--d0, 1px)") ∈ Reference.leavesOf [] c.references :=
      listed_of_compile compiled (by decide +kernel)
    obtain ⟨name, given, valued, _⟩ := reference_resolves _ _ c Settings.sample_hasValidScope
      compiled _ _ listed
    obtain ⟨value, root, resolved⟩ := valued (by decide +kernel)
    exact ⟨c, name, value, Settings.sample_hasValidScope, compiled, listed, given, root, resolved⟩
  · obtain ⟨c, compiled⟩ := exists_of_isOk .printOnly .sample (by decide +kernel)
    have listed : (["a"], "var(--d0)") ∈ Reference.leavesOf [] c.references :=
      listed_of_compile compiled (by decide +kernel)
    obtain ⟨name, given, _, valueless, _⟩ := reference_resolves _ _ c
      Settings.sample_hasValidScope compiled _ _ listed
    exact ⟨c, name, compiled, listed, given, valueless (by decide +kernel)⟩

/--
A compilation tells of a value that is declared over another exactly if the reference of some leaf resolves
to a value that is not the one the leaf was given.
-/
theorem redeclared_iff_resolves_otherwise (tokens : Group) (settings : Settings) (c : Compilation)
    (valid : settings.HasValidScope) (compiled : compile tokens settings = .ok c) :
    (∃ property previous value,
        .redeclared property previous value ∈ (compileNoting tokens settings).2) ↔
      ∃ l ∈ tokens.leaves, ∃ given, l.content.value? = some given ∧
        ∃ expression, (l.path, expression) ∈ Reference.leavesOf [] c.references ∧
          ∃ other, Reference.resolve c.sheet expression = .ok other ∧ other ≠ given := by
  obtain ⟨T, flat, mirrors⟩ := flat_mirrors_of_compile compiled
  rw [flat.redeclared_iff_leaf compiled]
  refine exists_congr fun l => and_congr_right fun member => exists_congr fun given =>
    and_congr_right fun own => ?_
  constructor
  · intro differs
    obtain ⟨other, root⟩ :=
      (flat.exists_rootValue_iff member).mpr ⟨l, member, rfl, by simp [own]⟩
    obtain ⟨expression, listed⟩ := exists_reference_of_leaf mirrors member
    refine ⟨expression, listed, other, ?_, ?_⟩
    · rw [flat.resolve_eq valid mirrors listed, root]
    · rintro rfl
      exact differs ((Sheet.rootValue_eq_ok_iff _ _ _).mp root)
  · rintro ⟨expression, listed, other, resolved, differs⟩ root
    rw [flat.resolve_eq valid mirrors listed, Sheet.rootValue_eq_ok_iff, root] at resolved
    exact differs (Option.some.inj resolved).symm

theorem redeclared_iff_resolves_otherwise_sample :
    ∃ c, Settings.sample.HasValidScope ∧ compile .sample .sample = .ok c ∧
      .redeclared "--a-b" "1px" "3px" ∈ (compileNoting .sample .sample).2 ∧
      ∃ l ∈ Group.sample.leaves, ∃ given, l.content.value? = some given ∧
        ∃ expression, (l.path, expression) ∈ Reference.leavesOf [] c.references ∧
          ∃ other, Reference.resolve c.sheet expression = .ok other ∧ other ≠ given := by
  obtain ⟨c, compiled⟩ := compile_sample
  have noticed : .redeclared "--a-b" "1px" "3px" ∈ (compileNoting .sample .sample).2 := by
    decide +kernel
  have lost := redeclared_iff_resolves_otherwise _ _ c Settings.sample_hasValidScope compiled
  exact ⟨c, Settings.sample_hasValidScope, compiled, noticed, lost.mp ⟨_, _, _, noticed⟩⟩

end DesignTokens
