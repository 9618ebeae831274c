import DesignTokens.Proofs.Records

set_option autoImplicit false

namespace DesignTokens

open OrderedMap

def Group.authored (tokens : Group) (settings : Settings) : List String :=
  tokens.leaves.map (Leaf.authored settings)

def Compilation.short? (c : Compilation) (name : String) : Option String :=
  c.names.bind fun t => t.short? name

/-- The compilation holds what the leaves write, under the names of the table. -/
structure Flat (tokens : Group) (settings : Settings) (T : NameTable) (c : Compilation) : Prop where
  scope : T.scope = settings.scope
  authored : T.authored = (tokens.authored settings).eraseDups
  names : c.names = if T.size = 0 then none else some T
  root : c.sheet.root = renamed T.nameOf (lastWrites (rootWrites settings tokens.leaves))
  media : c.sheet.media =
    (lastWritesWithin (mediaWrites settings tokens.leaves)).map fun part =>
      (Sheet.mediaKey part.1, renamed T.nameOf part.2)
  registrations : c.registrations =
    renamed T.nameOf (lastWrites (registrationWrites settings tokens.leaves))

theorem exists_of_isOk (tokens : Group) (settings : Settings)
    (succeeds : (compile tokens settings).isOk = true) :
    ∃ c, compile tokens settings = .ok c := by
  cases result : compile tokens settings with
  | ok c => exact ⟨c, rfl⟩
  | error fault => simp [result, Except.isOk, Except.toBool] at succeeds

theorem mediaKey_apart (a b : String) (same : Sheet.mediaKey a = Sheet.mediaKey b) : a = b := by
  have texts := congrArg String.toList same
  simp only [Sheet.mediaKey, String.toList_append] at texts
  exact String.toList_inj.mp (List.append_cancel_left texts)

section Writes

variable {α : Type} {settings : Settings} {leaves : List Leaf}

theorem mem_of_mem_writesOf {f : Content → Option α} {w : String × α}
    (written : w ∈ writesOf settings f leaves) :
    ∃ l ∈ leaves, l.authored settings = w.1 ∧ f l.content = some w.2 := by
  obtain ⟨l, listed, value⟩ := List.mem_filterMap.mp written
  obtain ⟨text, own, rfl⟩ := Option.map_eq_some_iff.mp value
  exact ⟨l, listed, rfl, own⟩

theorem mem_of_mem_mediaWrites {w : String × String × String}
    (written : w ∈ mediaWrites settings leaves) :
    ∃ l ∈ leaves, l.authored settings = w.2.1 ∧ (w.1, w.2.2) ∈ l.content.mediaValues settings := by
  obtain ⟨l, listed, value⟩ := List.mem_flatMap.mp written
  obtain ⟨v, own, rfl⟩ := List.mem_map.mp value
  exact ⟨l, listed, rfl, own⟩

variable {T : NameTable} (listed : ∀ l ∈ leaves, l.authored settings ∈ T.authored)

include listed in
theorem lastWrites_writesOf (f : Content → Option α) :
    lastWrites (renamed T.nameOf (writesOf settings f leaves)) =
      renamed T.nameOf (lastWrites (writesOf settings f leaves)) := by
  refine lastWrites_renamed T.nameOf _ ?_
  intro a ha b hb
  obtain ⟨v, writtenV, rfl⟩ := List.mem_map.mp ha
  obtain ⟨w, writtenW, rfl⟩ := List.mem_map.mp hb
  obtain ⟨l, hl, nameL, _⟩ := mem_of_mem_writesOf writtenV
  obtain ⟨l', hl', nameL', _⟩ := mem_of_mem_writesOf writtenW
  exact T.nameOf_apart (nameL ▸ listed l hl) (nameL' ▸ listed l' hl')

include listed in
theorem lastWritesWithin_mediaWrites :
    lastWritesWithin ((mediaWrites settings leaves).map (Compile.placed T)) =
      (lastWritesWithin (mediaWrites settings leaves)).map fun part =>
        (Sheet.mediaKey part.1, renamed T.nameOf part.2) := by
  refine lastWritesWithin_renamed Sheet.mediaKey T.nameOf _ mediaKey_apart ?_
  intro v writtenV w writtenW
  obtain ⟨l, hl, nameL, _⟩ := mem_of_mem_mediaWrites writtenV
  obtain ⟨l', hl', nameL', _⟩ := mem_of_mem_mediaWrites writtenW
  exact T.nameOf_apart (nameL ▸ listed l hl) (nameL' ▸ listed l' hl')

end Writes

theorem flat_of_walk {tokens : Group} {settings : Settings} {references : References} {d : Draft}
    (run : Compile.exec (Compile.walk settings [] tokens.outline) (Compile.start settings) =
      (.ok references, d)) {c : Compilation} (finishes : Compile.Finishes references d c) :
    Flat tokens settings d.names c := by
  obtain rfl := finishes
  have records : Compile.Records settings d.names tokens.leaves (Compile.start settings) d :=
    Compile.walk_records run (NameTable.grows_refl d.names)
  have authored : d.names.authored = (tokens.authored settings).eraseDups := by
    rw [records.names]
    exact NameTable.authored_assignAll settings.scope _
  have listed : ∀ l ∈ tokens.leaves, l.authored settings ∈ d.names.authored := by
    intro l member
    rw [authored, List.mem_eraseDups]
    exact List.mem_map_of_mem member
  refine ⟨?_, authored, rfl, ?_, ?_, ?_⟩
  · rw [records.names, NameTable.scope_assignAll]
    rfl
  · rw [records.root]
    exact (ofList_eq_lastWrites _).trans (lastWrites_writesOf listed _)
  · rw [records.media]
    exact (overlayWithin_eq_lastWritesWithin _).trans (lastWritesWithin_mediaWrites listed)
  · rw [records.registrations]
    exact (ofList_eq_lastWrites _).trans (lastWrites_writesOf listed _)

theorem flat_of_compile {tokens : Group} {settings : Settings} {c : Compilation}
    (compiled : compile tokens settings = .ok c) : ∃ T, Flat tokens settings T c := by
  obtain ⟨references, d, run, finishes⟩ := Compile.finishes_of_compile compiled
  exact ⟨d.names, flat_of_walk run finishes⟩

theorem NameTable.entries_kept (T : NameTable) :
    ((if T.size = 0 then none else some T).map entries).getD [] = T.entries := by
  split
  next empty =>
    have unnamed : T.authored = [] := List.eq_nil_of_length_eq_zero empty
    simp [entries, unnamed]
  next => rfl

namespace Flat

variable {tokens : Group} {settings : Settings} {T : NameTable} {c : Compilation}

theorem listed (flat : Flat tokens settings T c) {l : Leaf} (member : l ∈ tokens.leaves) :
    l.authored settings ∈ T.authored := by
  rw [flat.authored, List.mem_eraseDups]
  exact List.mem_map_of_mem member

-- An empty table is left out of the compilation, which changes no look-up.
theorem short?_eq (flat : Flat tokens settings T c) (name : String) :
    c.short? name = T.short? name := by
  unfold Compilation.short?
  rw [flat.names]
  split
  next empty =>
    have unnamed : T.authored = [] := List.eq_nil_of_length_eq_zero empty
    simp [NameTable.short?, unnamed]
  next => rfl

theorem nameEntries_eq (flat : Flat tokens settings T c) : c.nameEntries = T.entries := by
  rw [Compilation.nameEntries, flat.names]
  exact T.entries_kept

theorem length_nameEntries (flat : Flat tokens settings T c) :
    c.nameEntries.length = (tokens.authored settings).eraseDups.length := by
  simp [flat.nameEntries_eq, NameTable.entries, flat.authored]

theorem distinct (flat : Flat tokens settings T c) : T.authored.Nodup :=
  flat.authored ▸ nodup_eraseDups _

theorem short?_leaf (flat : Flat tokens settings T c) {l : Leaf} (member : l ∈ tokens.leaves) :
    c.short? (l.authored settings) = some (T.nameOf (l.authored settings)) := by
  rw [flat.short?_eq, T.short?_eq_nameOf _ (flat.listed member)]

end Flat

theorem mem_of_mem_lastWrites {α : Type} {writes : List (String × α)} {w : String × α}
    (member : w ∈ lastWrites writes) : w ∈ writes :=
  mem_of_mem_ofList writes w (by rwa [ofList_eq_lastWrites])

theorem mem_of_mem_lastWritesWithin {α : Type} {writes : List (String × String × α)}
    {part : String × List (String × α)} (member : part ∈ lastWritesWithin writes)
    {w : String × α} (inside : w ∈ part.2) : (part.1, w) ∈ writes := by
  obtain ⟨key, _, rfl⟩ := List.mem_map.mp member
  obtain ⟨v, kept, rfl⟩ := List.mem_map.mp (mem_of_mem_lastWrites inside)
  obtain ⟨written, same⟩ := List.mem_filter.mp kept
  rwa [← beq_iff_eq.mp same]

/--
The compilation of a group is what its leaf sequence writes: authored names get the short names of
their first occurrences, and each partition keeps the last write of a name at the place of its first.
-/
theorem compile_leaf_sequence (tokens : Group) (settings : Settings) (c : Compilation)
    (compiled : compile tokens settings = .ok c) :
    (c.nameEntries = (tokens.authored settings).eraseDups.zipIdx.map fun entry =>
        ("--" ++ ShortName.ofCount settings.scope entry.2, entry.1)) ∧
      (c.sheet.root.map fun d => (some d.1, d.2)) =
        (lastWrites (rootWrites settings tokens.leaves)).map (fun w => (c.short? w.1, w.2)) ∧
      (c.sheet.media.map fun part => (part.1, part.2.map fun d => (some d.1, d.2))) =
        (lastWritesWithin (mediaWrites settings tokens.leaves)).map fun part =>
          (Sheet.mediaKey part.1, part.2.map fun w => (c.short? w.1, w.2)) := by
  obtain ⟨T, flat⟩ := flat_of_compile compiled
  refine ⟨?_, ?_, ?_⟩
  · rw [flat.nameEntries_eq]
    simp only [NameTable.entries, NameTable.property, flat.scope, flat.authored]
  · rw [flat.root, renamed, List.map_map]
    apply List.map_congr_left
    intro w member
    obtain ⟨l, listed, name, _⟩ := mem_of_mem_writesOf (mem_of_mem_lastWrites member)
    simp [← name, flat.short?_leaf listed]
  · rw [flat.media, List.map_map]
    apply List.map_congr_left
    intro part member
    simp only [Function.comp_apply, renamed, List.map_map, Prod.mk.injEq, true_and]
    apply List.map_congr_left
    intro w inside
    obtain ⟨l, listed, name, _⟩ :=
      mem_of_mem_mediaWrites (mem_of_mem_lastWritesWithin member inside)
    simp only at name
    simp [← name, flat.short?_leaf listed]

-- Two paths of one name, a blank media value, a shorthand for a scale and a list with a blank item.
def Group.sample : Group :=
  [("a-b", .scalar (.text "1px")),
    ("a", .group [("b", .list [
      .group [("wide", .scalar (.text "2px")), ("print", .scalar (.text ""))],
      .scalar (.text "3px")])]),
    ("units", .group [("px", .list [
      .scalar (.number 0), .scalar (.number 4), .scalar (.number 8)])]),
    ("gap", .list [.scalar (.text "4px"), .scalar (.text "")])]

def Settings.sample : Settings := ⟨none, some "d", [("wide", "(width>9px)"), ("print", "print")]⟩

theorem compile_sample : ∃ c, compile .sample .sample = .ok c :=
  exists_of_isOk .sample .sample (by decide +kernel)

theorem compile_leaf_sequence_sample :
    ∃ c, compile .sample .sample = .ok c ∧
      c.nameEntries = [("--d0", "--a-b"), ("--d1", "--units-px-0"), ("--d2", "--units-px-4"),
        ("--d3", "--units-px-8"), ("--d4", "--gap-0")] ∧
      (c.sheet.root.map fun d => (some d.1, d.2)) =
        [("--a-b", "3px"), ("--units-px-0", "0px"), ("--units-px-4", "4px"),
          ("--units-px-8", "8px"), ("--gap-0", "4px")].map (fun w => (c.short? w.1, w.2)) ∧
      (c.sheet.media.map fun part => (part.1, part.2.map fun d => (some d.1, d.2))) =
        [("@media (width>9px)", [(c.short? "--a-b", "2px")])] := by
  obtain ⟨c, compiled⟩ := compile_sample
  obtain ⟨names, root, media⟩ := compile_leaf_sequence .sample .sample c compiled
  refine ⟨c, compiled, ?_, ?_, ?_⟩
  · rw [names]
    decide +kernel
  · rw [root]
    exact congrArg _ (by decide +kernel)
  · have writes : lastWritesWithin (mediaWrites .sample Group.sample.leaves) =
        [("(width>9px)", [("--a-b", "2px")])] := by decide +kernel
    rw [media, writes]
    rfl

end DesignTokens
