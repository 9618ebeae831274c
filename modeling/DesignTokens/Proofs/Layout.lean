import DesignTokens.Proofs.FirstFault
import DesignTokens.Proofs.PathChecks

set_option autoImplicit false

namespace DesignTokens

open OrderedMap

variable {α : Type}

def Leaf.bareName (l : Leaf) : String := Check.joined "-" l.path

def namedWrites (named : Leaf → String) (f : Content → Option α) (leaves : List Leaf) :
    List (String × α) :=
  leaves.filterMap fun l => (f l.content).map fun value => (named l, value)

def namedMediaWrites (settings : Settings) (named : Leaf → String) (leaves : List Leaf) :
    List (String × String × String) :=
  leaves.flatMap fun l => (l.content.mediaValues settings).map fun w => (w.1, named l, w.2)

namespace NameTable

def block (t : NameTable) (writes : List (String × α)) : List (String × α) :=
  renamed t.nameOf (lastWrites writes)

def blocks (t : NameTable) (writes : List (String × String × String)) : List (String × Block) :=
  (lastWritesWithin writes).map fun part => (Sheet.mediaKey part.1, renamed t.nameOf part.2)

theorem blocks_eq (t : NameTable) (writes : List (String × String × String)) :
    t.blocks writes = (keys writes).eraseDups.map fun query =>
      (Sheet.mediaKey query, t.block (within writes query)) := by
  simp [blocks, lastWritesWithin, block]

variable {g : String → String} (apart : Function.Injective g) (t : NameTable)

include apart in
theorem block_mapNames (writes : List (String × α)) :
    (t.mapNames g).block (renamed g writes) = t.block writes := by
  rw [block, lastWrites_renamed _ _ fun _ _ _ _ same => apart same]
  simp [block, renamed, Function.comp_def, nameOf_mapNames apart]

include apart in
theorem blocks_mapNames (writes : List (String × String × String)) :
    (t.mapNames g).blocks (writes.map fun w => (w.1, g w.2.1, w.2.2)) = t.blocks writes := by
  have grouped := lastWritesWithin_renamed id g writes (fun _ _ same => same)
    fun _ _ _ _ same => apart same
  simp only [id] at grouped
  rw [blocks, grouped]
  simp [blocks, renamed, Function.comp_def, nameOf_mapNames apart]

end NameTable

def Outline.references (short : List String → String) (path : List String) : Outline → References
  | .nil => []
  | .leaf key content rest =>
      (key, .use (VarCall.mk (short (path ++ [key])) content.value?).write) ::
        rest.references short path
  | .blank _ rest => rest.references short path
  | .faulty _ _ rest => rest.references short path
  | .group key members rest =>
      (key, .group (members.references short (path ++ [key]))) :: rest.references short path

namespace Group

variable (tokens : Group)

def bareNames : List String := (tokens.leaves.map Leaf.bareName).eraseDups

def table (scope : Option String) : NameTable := ⟨scope, tokens.bareNames⟩

def prefixedTable (settings : Settings) : NameTable :=
  (tokens.table settings.scope).mapNames (settings.lead ++ ·)

def layout (settings : Settings) : Compilation :=
  let table := tokens.table settings.scope
  let names := tokens.prefixedTable settings
  { sheet :=
      { root := table.block (namedWrites Leaf.bareName Content.value? tokens.leaves)
        media := table.blocks (namedMediaWrites settings Leaf.bareName tokens.leaves) }
    references := tokens.outline.references (fun path => table.nameOf (Check.joined "-" path)) []
    registrations := table.block (namedWrites Leaf.bareName Content.registration? tokens.leaves)
    names := if names.size = 0 then none else some names }

end Group

def Content.fault? (settings : Settings) (property : String) : Content → Option Fault
  | .plain _ => none
  | .responsive tuple => tuple.media.findSome? (mediaFault? settings property)

def Event.fault? (settings : Settings) (named : List String → String) : Event → Option Fault
  | .leaf l => l.content.fault? settings (named l.path)
  | .blank _ => none
  | .fault f => some f

def Group.fault? (tokens : Group) (settings : Settings) : Option Fault :=
  tokens.events.findSome? (Event.fault? settings (authoredName settings))

namespace Compile.Stops

theorem perform (settings : Settings) (e : Event) :
    Stops (Compile.perform settings e) (e.fault? settings (authoredName settings)) := by
  have mapped {x : Step Reference} {fault? : Option Fault} (stops : Stops x fault?) :
      Stops ((fun _ => ()) <$> x) fault? := by
    rw [← bind_pure_comp]
    exact stops.bind_pure
  cases e with
  | blank path => exact fun _ => rfl
  | fault fault => exact throw fault
  | leaf l =>
    obtain ⟨path, content⟩ := l
    cases content with
    | plain value => exact mapped (leaf settings path value)
    | responsive tuple => exact mapped (responsive settings path tuple)

theorem performAll (settings : Settings) (events : List Event) :
    Stops (Compile.performAll settings events)
      (events.findSome? (Event.fault? settings (authoredName settings))) := by
  induction events with
  | nil => exact pure ()
  | cons e rest ih =>
    rw [findSome?_cons_or]
    exact (perform settings e).bind fun _ => ih

end Compile.Stops

theorem faultOf?_compile_eq (tokens : Group) (settings : Settings) :
    faultOf? (compile tokens settings) = tokens.fault? settings := by
  have stops := Compile.Stops.performAll settings tokens.events (Compile.start settings)
  rw [Group.events, ← Compile.walk_events, Compile.exec_map, faultOf?_map, Group.outline,
    ← Compile.group_eq_walk] at stops
  exact (faultOf?_map _ _).trans stops

theorem injective_append (start : String) : Function.Injective (start ++ · : String → String) :=
  fun _ _ same => (String.append_right_inj start).mp same

section Writes

variable {settings : Settings} {named other : Leaf → String} {g : String → String}
  {leaves : List Leaf} (agree : ∀ l ∈ leaves, named l = g (other l))

include agree in
theorem namedWrites_eq (f : Content → Option α) :
    namedWrites named f leaves = renamed g (namedWrites other f leaves) := by
  rw [namedWrites, namedWrites, renamed, List.map_filterMap]
  refine List.filterMap_congr fun l member => ?_
  simp [agree l member, Function.comp_def]

include agree in
theorem namedMediaWrites_eq :
    namedMediaWrites settings named leaves =
      (namedMediaWrites settings other leaves).map fun w => (w.1, g w.2.1, w.2.2) := by
  rw [namedMediaWrites, namedMediaWrites, List.map_flatMap]
  refine List.flatMap_congr fun l member => ?_
  simp [agree l member, Function.comp_def]

end Writes

theorem Outline.references_congr {short other : List String → String} {path : List String}
    (o : Outline) (agree : ∀ p ∈ o.paths path, short p = other p) :
    o.references short path = o.references other path := by
  induction o generalizing path with
  | nil => rfl
  | leaf key content rest ih =>
    simp only [paths, List.forall_mem_cons] at agree
    simp only [references, agree.1, ih agree.2]
  | blank key rest ih => exact ih agree
  | faulty key fault rest ih => exact ih agree
  | group key members rest ihm ihr =>
    simp only [paths, List.forall_mem_append] at agree
    simp only [references, ihm agree.1, ihr agree.2]

theorem Mirrors.references_eq {settings : Settings} {short? : String → Option String}
    {path : List String} {o : Outline} {references : References}
    (mirrors : Mirrors settings short? path o references) :
    references = o.references (fun p => (short? (authoredName settings p)).getD "") path := by
  induction mirrors with
  | nil path => rfl
  | leaf path key content name given _ ih => simp [Outline.references, given, ← ih]
  | blank path key _ ih => exact ih
  | group path key _ _ ihm ihr => simp only [Outline.references, ← ihm, ← ihr]

namespace Group

variable {tokens : Group}

theorem solid_of_mem_leaves {l : Leaf} (member : l ∈ tokens.leaves) : l.path ≠ [] := by
  have listed : l.path ∈ tokens.outline.paths [] := by
    rw [Outline.paths_eq]
    exact List.mem_map_of_mem member
  exact Outline.ne_nil_of_mem_paths l.path listed

theorem mem_bareNames_of_path {path : List String} (listed : path ∈ tokens.outline.paths []) :
    Check.joined "-" path ∈ tokens.bareNames := by
  rw [Outline.paths_eq] at listed
  obtain ⟨l, member, rfl⟩ := List.mem_map.mp listed
  exact List.mem_eraseDups.mpr (List.mem_map_of_mem member)

theorem mem_bareNames_of_write {f : Content → Option α} :
    ∀ name ∈ keys (namedWrites Leaf.bareName f tokens.leaves), name ∈ tokens.bareNames := by
  intro name written
  obtain ⟨w, member, rfl⟩ := List.mem_map.mp written
  obtain ⟨l, listed, value⟩ := List.mem_filterMap.mp member
  obtain ⟨_, _, rfl⟩ := Option.map_eq_some_iff.mp value
  exact List.mem_eraseDups.mpr (List.mem_map_of_mem listed)

theorem mem_bareNames_of_mediaWrite {settings : Settings} :
    ∀ w ∈ namedMediaWrites settings Leaf.bareName tokens.leaves, w.2.1 ∈ tokens.bareNames := by
  intro w written
  obtain ⟨l, listed, value⟩ := List.mem_flatMap.mp written
  obtain ⟨_, _, rfl⟩ := List.mem_map.mp value
  exact List.mem_eraseDups.mpr (List.mem_map_of_mem listed)

theorem authored_of_mem_leaves (settings : Settings) :
    ∀ l ∈ tokens.leaves, l.authored settings = settings.lead ++ l.bareName :=
  fun _ member => authoredName_eq settings (solid_of_mem_leaves member)

theorem authored_eq_bare (settings : Settings) :
    tokens.authored settings = (tokens.leaves.map Leaf.bareName).map (settings.lead ++ ·) := by
  rw [Group.authored_eq_joined, Outline.paths_eq, List.map_map (f := Leaf.path)]
  rfl

end Group

theorem nameEntries_layout (tokens : Group) (settings : Settings) :
    (tokens.layout settings).nameEntries =
      (tokens.table settings.scope).entries.map fun e => (e.1, settings.lead ++ e.2) := by
  rw [← NameTable.entries_mapNames (settings.lead ++ ·)]
  exact (tokens.prefixedTable settings).entries_kept

theorem isSome_names_layout (tokens : Group) (settings : Settings) :
    (tokens.layout settings).names.isSome = !tokens.bareNames.isEmpty := by
  have size : (tokens.prefixedTable settings).size = tokens.bareNames.length := by
    simp [Group.prefixedTable, NameTable.size, NameTable.mapNames, Group.table]
  simp only [Group.layout, size]
  cases tokens.bareNames <;> simp

namespace Flat

variable {tokens : Group} {settings : Settings} {T : NameTable} {c : Compilation}

theorem table_eq (flat : Flat tokens settings T c) : T = tokens.prefixedTable settings := by
  obtain ⟨scope, authored⟩ := T
  obtain rfl : scope = settings.scope := flat.scope
  obtain rfl : authored = (tokens.authored settings).eraseDups := flat.authored
  rw [Group.authored_eq_bare, eraseDups_map _ _ fun a b same => injective_append _ same]
  rfl

theorem block_eq (flat : Flat tokens settings T c) (f : Content → Option α) :
    T.block (writesOf settings f tokens.leaves) =
      (tokens.table settings.scope).block (namedWrites Leaf.bareName f tokens.leaves) := by
  have writes : writesOf settings f tokens.leaves = _ :=
    namedWrites_eq (Group.authored_of_mem_leaves settings) f
  rw [flat.table_eq, writes]
  exact NameTable.block_mapNames (injective_append _) _ _

theorem blocks_eq (flat : Flat tokens settings T c) :
    T.blocks (mediaWrites settings tokens.leaves) =
      (tokens.table settings.scope).blocks
        (namedMediaWrites settings Leaf.bareName tokens.leaves) := by
  have writes : mediaWrites settings tokens.leaves = _ :=
    namedMediaWrites_eq (Group.authored_of_mem_leaves settings)
  rw [flat.table_eq, writes]
  exact NameTable.blocks_mapNames (injective_append _) _ _

theorem references_eq (flat : Flat tokens settings T c)
    (mirrors : Mirrors settings c.short? [] tokens.outline c.references) :
    c.references = tokens.outline.references
      (fun path => (tokens.table settings.scope).nameOf (Check.joined "-" path)) [] := by
  rw [mirrors.references_eq]
  refine tokens.outline.references_congr fun path member => ?_
  rw [flat.short?_eq, authoredName_eq settings (Outline.ne_nil_of_mem_paths path member),
    flat.table_eq]
  exact NameTable.nameOf_mapNames (injective_append _) _ _

end Flat

theorem eq_layout_of_compile {tokens : Group} {settings : Settings} {c : Compilation}
    (compiled : compile tokens settings = .ok c) : c = tokens.layout settings := by
  obtain ⟨T, flat, mirrors⟩ := flat_mirrors_of_compile compiled
  have root := flat.root.trans (flat.block_eq Content.value?)
  have media := flat.media.trans flat.blocks_eq
  have references := flat.references_eq mirrors
  have registrations := flat.registrations.trans (flat.block_eq Content.registration?)
  have names := flat.names
  rw [flat.table_eq] at names
  obtain ⟨⟨_, _⟩, _, _, _⟩ := c
  subst root media references registrations names
  rfl

/-- A compilation is the layout of its group unless one of the group's events is at fault. -/
theorem compile_eq_layout (tokens : Group) (settings : Settings) :
    compile tokens settings = match tokens.fault? settings with
      | some fault => .error fault
      | none => .ok (tokens.layout settings) := by
  have faults := faultOf?_compile_eq tokens settings
  cases result : compile tokens settings with
  | error fault =>
    rw [result] at faults
    simp [← faults, faultOf?]
  | ok c =>
    rw [result] at faults
    simp [← faults, faultOf?, eq_layout_of_compile result]

end DesignTokens
