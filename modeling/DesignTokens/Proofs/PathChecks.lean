import Mathlib.Tactic.Common
import DesignTokens.Proofs.LeafPaths

set_option autoImplicit false

namespace DesignTokens

open OrderedMap

def dashTrimmed (text : List Char) : List Char :=
  ((text.dropWhile (· == '-')).reverse.dropWhile (· == '-')).reverse

def leadOf : Option String → String
  | none => ""
  | some text =>
      let kept := dashTrimmed text.toList
      if kept.isEmpty then "" else String.ofList kept ++ "-"

def Settings.lead (settings : Settings) : String := "--" ++ leadOf settings.pathPrefix

theorem Check.joined_cons (separator key : String) {path : List String} (solid : path ≠ []) :
    joined separator (key :: path) = key ++ separator ++ joined separator path :=
  String.intercalate_cons_of_ne_nil solid

theorem authoredName_eq (settings : Settings) {path : List String} (solid : path ≠ []) :
    authoredName settings path = settings.lead ++ Check.joined "-" path := by
  unfold Settings.lead
  cases own : settings.pathPrefix with
  | none => simp [authoredName, own, leadOf, Check.joined]
  | some text =>
    have words : authoredName settings path = "--" ++ Check.joined "-"
        ((if (dashTrimmed text.toList).isEmpty then []
          else [String.ofList (dashTrimmed text.toList)]) ++ path) := by
      rw [authoredName, own]
      rfl
    by_cases blank : (dashTrimmed text.toList).isEmpty
    · simp [words, leadOf, blank]
    · simp [words, leadOf, blank, Check.joined_cons _ _ solid, String.append_assoc]

namespace Check

theorem length_sharedPaths (seen : List (String × String)) (paths : List (List String)) :
    (sharedPaths seen paths).length +
        ((paths.map (joined "-")).filter (· ∉ keys seen)).eraseDups.length = paths.length := by
  induction paths generalizing seen with
  | nil => rfl
  | cons path rest ih =>
    rw [sharedPaths]
    cases found : get? seen (joined "-" path) with
    | some first =>
      have known : joined "-" path ∈ keys seen := (mem_keys_iff _ _).mpr ⟨first, found⟩
      have later := ih seen
      simp only [List.length_cons, List.map_cons, known, not_true, decide_false,
        Bool.false_eq_true, not_false_eq_true, List.filter_cons_of_neg]
      omega
    | none =>
      have unknown : joined "-" path ∉ keys seen := by simp [mem_keys_iff, found]
      have later := ih ((joined "-" path, joined "." path) :: seen)
      have fresh : ((rest.map (joined "-")).filter (· ∉ keys seen)).filter
          (fun property => !property == joined "-" path) =
          (rest.map (joined "-")).filter
            (· ∉ keys ((joined "-" path, joined "." path) :: seen)) := by
        rw [List.filter_filter]
        refine List.filter_congr fun property _ => ?_
        by_cases same : property = joined "-" path <;> simp [same]
      simp only [List.map_cons, unknown, not_false_eq_true, decide_true, List.filter_cons_of_pos,
        List.eraseDups_cons, fresh, List.length_cons]
      omega

theorem sharedPaths_eq_nil_iff (seen : List (String × String)) (paths : List (List String)) :
    sharedPaths seen paths = [] ↔
      (paths.map (joined "-")).Nodup ∧ ∀ path ∈ paths, joined "-" path ∉ keys seen := by
  induction paths generalizing seen with
  | nil => simp [sharedPaths]
  | cons path rest ih =>
    rw [sharedPaths]
    cases found : get? seen (joined "-" path) with
    | some first =>
      have known : joined "-" path ∈ keys seen := (mem_keys_iff _ _).mpr ⟨first, found⟩
      simp [known]
    | none =>
      have unknown : joined "-" path ∉ keys seen := by simp [mem_keys_iff, found]
      simp only [ih, List.map_cons, List.nodup_cons, List.mem_map, keys_cons, List.mem_cons]
      grind

end Check

theorem Group.authored_eq (tokens : Group) (settings : Settings) :
    tokens.authored settings = (tokens.outline.paths []).map (authoredName settings) := by
  rw [Outline.paths_eq, List.map_map]
  rfl

theorem Group.authored_eq_joined (tokens : Group) (settings : Settings) :
    tokens.authored settings =
      ((tokens.outline.paths []).map (Check.joined "-")).map (settings.lead ++ ·) := by
  rw [Group.authored_eq, List.map_map]
  exact List.map_congr_left fun path member =>
    authoredName_eq settings (Outline.ne_nil_of_mem_paths path member)

theorem Group.exists_authored_eq (tokens : Group) (settings : Settings) : ∃ lead : String,
    tokens.authored settings =
      ((tokens.outline.paths []).map (Check.joined "-")).map (lead ++ ·) :=
  ⟨settings.lead, tokens.authored_eq_joined settings⟩

theorem keys_writesOf_sublist {α : Type} (settings : Settings) (f : Content → Option α)
    (leaves : List Leaf) :
    (keys (writesOf settings f leaves)).Sublist (leaves.map (Leaf.authored settings)) := by
  induction leaves with
  | nil => exact .slnil
  | cons l rest ih =>
    cases value : f l.content with
    | none => simpa [writesOf, value] using ih.cons _
    | some own => simpa [writesOf, value, Leaf.authored] using ih.cons_cons (l.authored settings)

namespace Flat

variable {tokens : Group} {settings : Settings} {T : NameTable} {c : Compilation}

theorem mem_authored_iff (flat : Flat tokens settings T c) (name : String) :
    name ∈ T.authored ↔ name ∈ tokens.authored settings := by
  rw [flat.authored, List.mem_eraseDups]

theorem nodup_shorts_iff (flat : Flat tokens settings T c) :
    ((tokens.authored settings).map c.short?).Nodup ↔ (tokens.authored settings).Nodup := by
  constructor
  · exact List.Nodup.of_map _
  · intro distinct
    refine distinct.map_on fun a ha b hb same => ?_
    rw [← flat.mem_authored_iff] at ha hb
    rw [flat.short?_eq, flat.short?_eq, T.short?_eq_nameOf a ha, T.short?_eq_nameOf b hb] at same
    exact T.nameOf_apart ha hb (Option.some.inj same)

theorem nodup_keys_renamed (flat : Flat tokens settings T c)
    (nodup : (tokens.authored settings).Nodup) :
    (keys (renamed T.nameOf (rootWrites settings tokens.leaves))).Nodup := by
  have inside := keys_writesOf_sublist settings Content.value? tokens.leaves
  have listed : ∀ key ∈ keys (rootWrites settings tokens.leaves), key ∈ T.authored :=
    fun key member => (flat.mem_authored_iff key).mpr (inside.subset member)
  have shorts : keys (renamed T.nameOf (rootWrites settings tokens.leaves)) =
      (keys (rootWrites settings tokens.leaves)).map T.nameOf := by
    simp [keys, renamed]
  rw [shorts]
  exact (nodup.sublist inside).map_on fun a ha b hb =>
    T.nameOf_apart (listed a ha) (listed b hb)

end Flat

theorem Check.paths_eq {tokens : Group} {settings : Settings} {short? : String → Option String}
    {references : References} (mirrors : Mirrors settings short? [] tokens.outline references) :
    Check.paths tokens = Check.sharedPaths [] (tokens.outline.paths []) := by
  rw [Check.paths, Group.outline, Outline.paths_ofGroup mirrors.faultless]

theorem Check.paths_eq_nil_iff {tokens : Group} {settings : Settings} {c : Compilation}
    (compiled : compile tokens settings = .ok c) :
    Check.paths tokens = [] ↔ (tokens.authored settings).Nodup := by
  obtain ⟨T, _, mirrors⟩ := flat_mirrors_of_compile compiled
  obtain ⟨lead, authored⟩ := tokens.exists_authored_eq settings
  have apart : Function.Injective (lead ++ · : String → String) := fun a b same =>
    (String.append_right_inj lead).mp same
  rw [Check.paths_eq mirrors, Check.sharedPaths_eq_nil_iff, authored, List.nodup_map_iff apart]
  simp [keys]

theorem Compile.notices_of_compile {tokens : Group} {settings : Settings}
    {references : References} {d : Draft}
    (run : exec (walk settings [] tokens.outline) (start settings) = (.ok references, d)) :
    (compileNoting tokens settings).2 = d.notices := by
  have notices : (compileNoting tokens settings).2 =
      (exec (group settings [] false tokens) (start settings)).2.notices := rfl
  rw [notices, group_eq_walk]
  exact congrArg (fun outcome => outcome.2.notices) run

theorem Compile.redeclared_iff_replaced (T : NameTable) (d : Draft) :
    (∃ property previous value, .redeclared property previous value ∈ d.notices) ↔
      replaced T d ≠ [] := by
  rw [replaced, Ne, List.filterMap_eq_nil_iff]
  constructor
  · rintro ⟨property, previous, value, noticed⟩ silent
    cases silent _ noticed
  · intro told
    by_contra quiet
    refine told fun notice noticed => ?_
    cases notice with
    | redeclared property previous value => exact absurd ⟨_, _, _, noticed⟩ quiet
    | blankToken property => rfl
    | blankMedia property media => rfl

theorem Flat.unique {tokens : Group} {settings : Settings} {T U : NameTable} {c : Compilation}
    (flat : Flat tokens settings T c) (other : Flat tokens settings U c) : T = U := by
  obtain ⟨scope, authored⟩ := T
  obtain ⟨scope', authored'⟩ := U
  obtain rfl : scope = scope' := flat.scope.trans other.scope.symm
  obtain rfl : authored = authored' := flat.authored.trans other.authored.symm
  rfl

theorem Flat.redeclared_iff {tokens : Group} {settings : Settings} {T : NameTable}
    {c : Compilation} (flat : Flat tokens settings T c)
    (compiled : compile tokens settings = .ok c) :
    (∃ property previous value,
        .redeclared property previous value ∈ (compileNoting tokens settings).2) ↔
      replacements [] (renamed T.nameOf (rootWrites settings tokens.leaves)) ≠ [] := by
  obtain ⟨references, d, run, finishes⟩ := Compile.finishes_of_compile compiled
  obtain rfl := flat.unique (flat_of_walk run finishes)
  have replaced := (Compile.walk_records run (NameTable.grows_refl d.names)).replaced
  rw [Compile.notices_of_compile run, Compile.redeclared_iff_replaced d.names, replaced]
  rfl

/--
The check of paths warns once for each leaf that no name is left for: its warnings and the names of the
compilation are together as many as the leaves of its references. So it is silent exactly where every
leaf has a property of its own, and then nothing is declared twice.
-/
theorem compile_path_warnings (tokens : Group) (settings : Settings) (c : Compilation)
    (compiled : compile tokens settings = .ok c) :
    (Check.paths tokens).length + c.nameEntries.length =
        (Reference.leavesOf [] c.references).length ∧
      (Check.paths tokens = [] ↔
        ((Reference.leavesOf [] c.references).map fun leaf =>
          c.short? (authoredName settings leaf.1)).Nodup) ∧
      (Check.paths tokens = [] → ∀ property previous value,
        .redeclared property previous value ∉ (compileNoting tokens settings).2) := by
  obtain ⟨T, flat, mirrors⟩ := flat_mirrors_of_compile compiled
  have silent := Check.paths_eq_nil_iff compiled
  refine ⟨?_, ?_, ?_⟩
  · obtain ⟨lead, authored⟩ := tokens.exists_authored_eq settings
    have counted := Check.length_sharedPaths [] (tokens.outline.paths [])
    have leaves : (Reference.leavesOf [] c.references).length = (tokens.outline.paths []).length := by
      rw [← mirrors.paths_leaves, List.length_map]
    rw [Check.paths_eq mirrors, flat.length_nameEntries, authored,
      eraseDups_map _ _ fun a b same => (String.append_right_inj lead).mp same,
      List.length_map, leaves]
    simpa [keys] using counted
  · have properties : (Reference.leavesOf [] c.references).map
        (fun leaf => c.short? (authoredName settings leaf.1)) =
        (tokens.authored settings).map c.short? := by
      rw [Group.authored_eq, ← mirrors.paths_leaves, List.map_map, List.map_map]
      rfl
    rw [silent, properties, flat.nodup_shorts_iff]
  · intro quiet
    have nodup := flat.nodup_keys_renamed (silent.mp quiet)
    intro property previous value noticed
    exact (flat.redeclared_iff compiled).mp ⟨property, previous, value, noticed⟩
      (replacements_eq_nil_of_nodup nodup)

theorem compile_path_warnings_sample :
    (∃ c, compile .sample .sample = .ok c ∧ (Check.paths .sample).length = 1 ∧
      c.nameEntries.length = 5 ∧ (Reference.leavesOf [] c.references).length = 6) ∧
    ∃ c, compile [("q", .scalar (.text "2px"))] .sample = .ok c ∧
      Check.paths [("q", .scalar (.text "2px"))] = [] ∧
      ∀ property previous value, .redeclared property previous value ∉
        (compileNoting [("q", .scalar (.text "2px"))] .sample).2 := by
  constructor
  · obtain ⟨c, compiled⟩ := compile_sample
    obtain ⟨T, flat⟩ := flat_of_compile compiled
    obtain ⟨counted, _⟩ := compile_path_warnings _ _ c compiled
    have warned : (Check.paths .sample).length = 1 := by decide +kernel
    have entries : c.nameEntries.length = 5 := flat.length_nameEntries.trans (by decide +kernel)
    exact ⟨c, compiled, warned, entries, by omega⟩
  · obtain ⟨c, compiled⟩ :=
      exists_of_isOk [("q", .scalar (.text "2px"))] .sample (by decide +kernel)
    obtain ⟨_, _, quiet⟩ := compile_path_warnings _ _ c compiled
    have silent : Check.paths [("q", .scalar (.text "2px"))] = [] := by decide +kernel
    exact ⟨c, compiled, silent, quiet silent⟩

end DesignTokens
