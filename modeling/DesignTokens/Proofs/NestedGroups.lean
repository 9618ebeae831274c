import DesignTokens.Proofs.AlikeCompilations

set_option autoImplicit false

namespace DesignTokens

open OrderedMap

def Leaf.under (key : String) (l : Leaf) : Leaf := ⟨key :: l.path, l.content⟩

def Event.under (key : String) : Event → Event
  | .leaf l => .leaf (l.under key)
  | .blank path => .blank (key :: path)
  | .fault f => .fault f

theorem Event.leaf?_under (key : String) (e : Event) :
    (e.under key).leaf? = e.leaf?.map (Leaf.under key) := by
  cases e <;> rfl

theorem Event.fault?_under (settings : Settings) (named : List String → String) (key : String)
    (e : Event) :
    (e.under key).fault? settings named = e.fault? settings fun path => named (key :: path) := by
  cases e <;> rfl

namespace Outline

theorem events_under (key : String) (path : List String) (o : Outline) :
    o.events (key :: path) = (o.events path).map (Event.under key) := by
  induction o generalizing path with
  | nil => rfl
  | leaf own content rest ih => simp [events, Event.under, Leaf.under, ih]
  | blank own rest ih => simp [events, Event.under, ih]
  | faulty own fault rest ih => simp [events, Event.under, ih]
  | group own members rest ihm ihr => simp [events, ihm, ihr]

theorem references_under (short : List String → String) (key : String) (path : List String)
    (o : Outline) :
    o.references short (key :: path) = o.references (fun p => short (key :: p)) path := by
  induction o generalizing path with
  | nil => rfl
  | leaf own content rest ih => simp [references, ih]
  | blank own rest ih => exact ih path
  | faulty own fault rest ih => exact ih path
  | group own members rest ihm ihr => simp [references, ihm, ihr]

end Outline

namespace Group

def nested (key : String) (tokens : Group) : Group := [(key, .group tokens)]

theorem bareName_under {key : String} {tokens : Group} {l : Leaf}
    (member : l ∈ tokens.leaves) :
    (l.under key).bareName = key ++ "-" ++ l.bareName :=
  Check.joined_cons "-" key (solid_of_mem_leaves member)

variable {key : String} (notPalette : key ≠ paletteKey) (notUnits : key ≠ unitsKey)
  (tokens : Group)

include notPalette notUnits

theorem outline_nested : (tokens.nested key).outline = .group key tokens.outline .nil := by
  have unread : Role.scales? key tokens = none := by simp [Role.scales?, notUnits]
  have plain : (key == paletteKey) = false := beq_eq_false_iff_ne.mpr notPalette
  simp only [outline, nested, Outline.ofGroup, Outline.ofToken, unread, plain]

theorem events_nested : (tokens.nested key).events = tokens.events.map (Event.under key) := by
  rw [events, outline_nested notPalette notUnits, Outline.events, Outline.events,
    List.append_nil]
  exact Outline.events_under key [] tokens.outline

theorem leaves_nested : (tokens.nested key).leaves = tokens.leaves.map (Leaf.under key) := by
  rw [leaves, events_nested notPalette notUnits, List.filterMap_map, leaves, List.map_filterMap]
  exact congrArg (List.filterMap · tokens.events) (funext (Event.leaf?_under key))

theorem table_nested (scope : Option String) :
    (tokens.nested key).table scope = (tokens.table scope).mapNames (key ++ "-" ++ ·) := by
  have names : (tokens.leaves.map (Leaf.under key)).map Leaf.bareName =
      (tokens.leaves.map Leaf.bareName).map (key ++ "-" ++ ·) := by
    rw [List.map_map, List.map_map]
    exact List.map_congr_left fun l member => bareName_under member
  rw [table, bareNames, leaves_nested notPalette notUnits, names,
    eraseDups_map _ _ fun a b same => injective_append _ same]
  rfl

theorem namedWrites_nested {α : Type} (f : Content → Option α) :
    namedWrites Leaf.bareName f (tokens.nested key).leaves =
      renamed (key ++ "-" ++ ·) (namedWrites Leaf.bareName f tokens.leaves) := by
  rw [leaves_nested notPalette notUnits, namedWrites, List.filterMap_map]
  exact namedWrites_eq (fun l member => bareName_under member) f

theorem namedMediaWrites_nested (settings : Settings) :
    namedMediaWrites settings Leaf.bareName (tokens.nested key).leaves =
      (namedMediaWrites settings Leaf.bareName tokens.leaves).map fun w =>
        (w.1, key ++ "-" ++ w.2.1, w.2.2) := by
  rw [leaves_nested notPalette notUnits, namedMediaWrites, List.flatMap_map]
  exact namedMediaWrites_eq fun l member => bareName_under member

theorem sheet_nested (settings : Settings) :
    ((tokens.nested key).layout settings).sheet = (tokens.layout settings).sheet := by
  simp only [layout, table_nested notPalette notUnits, namedWrites_nested notPalette notUnits,
    namedMediaWrites_nested notPalette notUnits, NameTable.block_mapNames (injective_append _),
    NameTable.blocks_mapNames (injective_append _)]

theorem registrations_nested (settings : Settings) :
    ((tokens.nested key).layout settings).registrations =
      (tokens.layout settings).registrations := by
  simp only [layout, table_nested notPalette notUnits, namedWrites_nested notPalette notUnits,
    NameTable.block_mapNames (injective_append _)]

theorem references_nested (settings : Settings) :
    ((tokens.nested key).layout settings).references =
      [(key, .group (tokens.layout settings).references)] := by
  simp only [layout, outline_nested notPalette notUnits, table_nested notPalette notUnits,
    Outline.references, List.nil_append, Outline.references_under]
  have agree : ∀ path ∈ tokens.outline.paths [],
      ((tokens.table settings.scope).mapNames (key ++ "-" ++ ·)).nameOf
        (Check.joined "-" (key :: path)) =
      (tokens.table settings.scope).nameOf (Check.joined "-" path) := by
    intro path member
    rw [Check.joined_cons "-" key (Outline.ne_nil_of_mem_paths path member)]
    exact NameTable.nameOf_mapNames (injective_append _) _ _
  rw [tokens.outline.references_congr agree]

theorem fault?_nested (settings : Settings) :
    (tokens.nested key).fault? settings = tokens.events.findSome?
      (Event.fault? settings fun path => authoredName settings (key :: path)) := by
  rw [fault?, events_nested notPalette notUnits, List.findSome?_map]
  exact congrArg (List.findSome? · tokens.events) (funext (Event.fault?_under settings _ key))

end Group

/--
Under a key of its own a group compiles as it does alone, or fails as it does: with the same declarations
and registrations, so with the same text and object, with its references under that key and with the key
put in front of its paths.
-/
theorem compile_nested (key : String) (notPalette : key ≠ paletteKey) (notUnits : key ≠ unitsKey)
    (tokens : Group) (settings : Settings) :
    Alike
      (Fault.SameAt (authoredName settings) fun path => authoredName settings (key :: path))
      (fun c c' => c'.sheet = c.sheet ∧ c'.registrations = c.registrations ∧
        c'.css = c.css ∧ c'.object = c.object ∧
        c'.references = [(key, .group c.references)] ∧ c'.names.isSome = c.names.isSome ∧
        ∃ entries : List (String × String),
          (c.nameEntries = entries.map fun e =>
            (e.1, "--" ++ leadOf settings.pathPrefix ++ e.2)) ∧
          c'.nameEntries = entries.map fun e =>
            (e.1, "--" ++ leadOf settings.pathPrefix ++ (key ++ "-" ++ e.2)))
      (compile tokens settings) (compile [(key, .group tokens)] settings) := by
  have sheet := tokens.sheet_nested notPalette notUnits settings
  have registrations := tokens.registrations_nested notPalette notUnits settings
  have table := tokens.table_nested notPalette notUnits settings.scope
  change Alike _ _ _ (compile (tokens.nested key) settings)
  refine compile_alike ?_ ⟨sheet, registrations, ?_, ?_,
    tokens.references_nested notPalette notUnits settings, ?_,
    (tokens.table settings.scope).entries, nameEntries_layout _ _, ?_⟩
  · rw [tokens.fault?_nested notPalette notUnits]
    exact rel_findSome? _ (Event.fault?_rel rfl _ _)
  · rw [Compilation.css, sheet, registrations, Compilation.css]
  · rw [Compilation.object, sheet, registrations, Compilation.object]
  · have names := congrArg NameTable.authored table
    simp only [Group.table, NameTable.mapNames] at names
    rw [isSome_names_layout, isSome_names_layout, names, List.isEmpty_map]
  · rw [nameEntries_layout, table, NameTable.entries_mapNames, List.map_map]
    rfl

theorem compile_nested_sample :
    "brand" ≠ paletteKey ∧ "brand" ≠ unitsKey ∧
      ∃ c c', compile .sample .sample = .ok c ∧
        compile [("brand", .group Group.sample)] .sample = .ok c' ∧
        c'.css = c.css ∧ c'.object = c.object ∧
        c'.references = [("brand", .group c.references)] ∧
        ∃ entries : List (String × String),
          (c.nameEntries = entries.map fun e => (e.1, "--" ++ e.2)) ∧
          c'.nameEntries = entries.map fun e => (e.1, "--" ++ ("brand-" ++ e.2)) := by
  obtain ⟨c, compiled⟩ := compile_sample
  have alike := compile_nested "brand" (by decide) (by decide) .sample .sample
  rw [compiled] at alike
  obtain ⟨c', compiled', _, _, css, object, references, _, entries, names, names'⟩ :=
    alike.exists_of_ok
  exact ⟨by decide, by decide, c, c', compiled, compiled', css, object, references, entries,
    names, names'⟩

end DesignTokens
