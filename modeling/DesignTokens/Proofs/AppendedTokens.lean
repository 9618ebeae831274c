import DesignTokens.Proofs.Layout

set_option autoImplicit false

namespace DesignTokens

open OrderedMap

variable {α : Type}

namespace Outline

def append : Outline → Outline → Outline
  | .nil, after => after
  | .leaf key content rest, after => .leaf key content (rest.append after)
  | .blank key rest, after => .blank key (rest.append after)
  | .faulty key fault rest, after => .faulty key fault (rest.append after)
  | .group key members rest, after => .group key members (rest.append after)

theorem events_append (path : List String) (o after : Outline) :
    (o.append after).events path = o.events path ++ after.events path := by
  induction o with
  | nil => rfl
  | leaf key content rest ih => simp [append, events, ih]
  | blank key rest ih => simp [append, events, ih]
  | faulty key fault rest ih => simp [append, events, ih]
  | group key members rest _ ih => simp [append, events, ih]

theorem references_append (short : List String → String) (path : List String)
    (o after : Outline) :
    (o.append after).references short path =
      o.references short path ++ after.references short path := by
  induction o with
  | nil => rfl
  | leaf key content rest ih => simp [append, references, ih]
  | blank key rest ih => exact ih
  | faulty key fault rest ih => exact ih
  | group key members rest _ ih => simp [append, references, ih]

-- What comes after a token is never looked at, so there is nothing to induct on.
theorem ofToken_append (key : String) (inPalette : Bool) (rest after : Outline) (t : Token) :
    ofToken key inPalette (rest.append after) t = (ofToken key inPalette rest t).append after := by
  cases t with
  | scalar s =>
    rw [ofToken, ofToken, ofScalar, ofScalar]
    cases Role.swatch? inPalette s with
    | some text => cases shaded : ShadeScale.of text <;> simp [shaded, append]
    | none => by_cases blank : s.isBlank <;> simp [blank, append]
  | group members =>
    rw [ofToken, ofToken]
    cases Role.scales? key members with
    | some config => cases expanded : Scale.ofUnits config <;> simp [expanded, append]
    | none => rfl
  | list items =>
    rw [ofToken, ofToken]
    cases Role.responsive? items <;> rfl

theorem ofGroup_append (inPalette : Bool) (members more : List (String × Token)) :
    ofGroup inPalette (members ++ more) =
      (ofGroup inPalette members).append (ofGroup inPalette more) := by
  induction members with
  | nil => rfl
  | cons entry rest ih =>
    obtain ⟨key, t⟩ := entry
    rw [List.cons_append, ofGroup, ih, ofGroup, ofToken_append]

end Outline

theorem isPrefix_eraseDups (names more : List String) :
    names.eraseDups <+: (names ++ more).eraseDups := by
  rw [List.eraseDups_append]
  exact List.prefix_append _ _

namespace NameTable

theorem keys_block (t : NameTable) (writes : List (String × α)) :
    keys (t.block writes) = (keys writes).eraseDups.map t.nameOf := by
  rw [← keys_lastWrites]
  simp [block, renamed, keys]

theorem keys_blocks (t : NameTable) (writes : List (String × String × String)) :
    keys (t.blocks writes) = (keys writes).eraseDups.map Sheet.mediaKey := by
  simp [blocks_eq, keys]

variable {t u : NameTable} (grows : Grows t u)

include grows in
theorem isPrefix_entries : t.entries <+: u.entries := by
  obtain ⟨scope, more, names⟩ := grows
  have properties : u.property = t.property := funext fun count => by
    rw [property, property, scope]
  rw [entries, entries, names, properties, List.zipIdx_append, List.map_append]
  exact List.prefix_append _ _

include grows in
theorem isPrefix_keys_block {writes : List (String × α)}
    (listed : ∀ name ∈ keys writes, name ∈ t.authored) (more : List (String × α)) :
    keys (t.block writes) <+: keys (u.block (writes ++ more)) := by
  have kept : (keys writes).eraseDups.map t.nameOf = (keys writes).eraseDups.map u.nameOf := by
    refine List.map_congr_left fun name member => ?_
    exact (nameOf_of_grows grows (listed name (List.mem_eraseDups.mp member))).symm
  rw [keys_block, keys_block, kept, keys_append]
  exact (isPrefix_eraseDups _ _).map u.nameOf

theorem isPrefix_keys_blocks (writes more : List (String × String × String)) :
    keys (t.blocks writes) <+: keys (u.blocks (writes ++ more)) := by
  rw [keys_blocks, keys_blocks, keys_append]
  exact (isPrefix_eraseDups _ _).map Sheet.mediaKey

include grows in
theorem exists_longer_block {writes : List (String × String × String)}
    (listed : ∀ w ∈ writes, w.2.1 ∈ t.authored) (more : List (String × String × String)) :
    ∀ part ∈ t.blocks writes, ∃ part' ∈ u.blocks (writes ++ more),
      part'.1 = part.1 ∧ keys part.2 <+: keys part'.2 := by
  intro part placed
  rw [blocks_eq] at placed
  obtain ⟨query, own, rfl⟩ := List.mem_map.mp placed
  have later : query ∈ (keys (writes ++ more)).eraseDups := by
    rw [keys_append]
    exact (isPrefix_eraseDups _ _).subset own
  have inside : ∀ name ∈ keys (within writes query), name ∈ t.authored := by
    intro name member
    obtain ⟨w, written, rfl⟩ := mem_keys_of_mem_within member
    exact listed w written
  have whole : within (writes ++ more) query = within writes query ++ within more query := by
    simp [within]
  refine ⟨(Sheet.mediaKey query, u.block (within (writes ++ more) query)), ?_, rfl, ?_⟩
  · rw [blocks_eq]
    exact List.mem_map.mpr ⟨query, later, rfl⟩
  · simp only [whole]
    exact isPrefix_keys_block grows inside _

end NameTable

namespace Group

variable (tokens more : Group)

theorem events_append : events (tokens ++ more) = tokens.events ++ more.events := by
  rw [events, outline, Outline.ofGroup_append, Outline.events_append]
  rfl

theorem leaves_append : leaves (tokens ++ more) = tokens.leaves ++ more.leaves := by
  rw [leaves, events_append, List.filterMap_append]
  rfl

theorem grows_table (scope : Option String) :
    NameTable.Grows (tokens.table scope) (table (tokens ++ more) scope) := by
  have longer : tokens.bareNames <+: bareNames (tokens ++ more) := by
    rw [bareNames, bareNames, leaves_append, List.map_append]
    exact isPrefix_eraseDups _ _
  obtain ⟨rest, names⟩ := longer
  exact ⟨rfl, rest, names.symm⟩

theorem isPrefix_references (settings : Settings) :
    (tokens.layout settings).references <+: (layout (tokens ++ more) settings).references := by
  have kept : ∀ path ∈ tokens.outline.paths [],
      (tokens.table settings.scope).nameOf (Check.joined "-" path) =
        (table (tokens ++ more) settings.scope).nameOf (Check.joined "-" path) :=
    fun path listed => (NameTable.nameOf_of_grows (grows_table tokens more _)
      (mem_bareNames_of_path listed)).symm
  simp only [layout, tokens.outline.references_congr kept]
  rw [outline, outline, Outline.ofGroup_append, Outline.references_append]
  exact List.prefix_append _ _

theorem namedWrites_append (f : Content → Option α) :
    namedWrites Leaf.bareName f (leaves (tokens ++ more)) =
      namedWrites Leaf.bareName f tokens.leaves ++ namedWrites Leaf.bareName f more.leaves := by
  simp [leaves_append, namedWrites]

theorem namedMediaWrites_append (settings : Settings) :
    namedMediaWrites settings Leaf.bareName (leaves (tokens ++ more)) =
      namedMediaWrites settings Leaf.bareName tokens.leaves ++
        namedMediaWrites settings Leaf.bareName more.leaves := by
  simp [leaves_append, namedMediaWrites]

variable {tokens more}

theorem compile_of_append {settings : Settings} {c' : Compilation}
    (compiled : compile (tokens ++ more) settings = .ok c') :
    compile tokens settings = .ok (tokens.layout settings) := by
  have faultless := faultOf?_compile_eq (tokens ++ more) settings
  rw [compiled, fault?, events_append, List.findSome?_append] at faultless
  have initial : tokens.fault? settings = none := (Option.or_eq_none_iff.mp faultless.symm).1
  rw [compile_eq_layout, initial]

end Group

/--
Tokens added at the end of a group rename nothing: where the longer group compiles, so does the first, and
all that it has of short names, references, root properties, media rules and properties in them stands
first, in its order, in the longer compilation.
-/
theorem compile_appended (tokens extended : Group) (initial : tokens <+: extended)
    (settings : Settings) (c' : Compilation) (compiled : compile extended settings = .ok c') :
    ∃ c, compile tokens settings = .ok c ∧ c.nameEntries <+: c'.nameEntries ∧
      c.references <+: c'.references ∧ keys c.sheet.root <+: keys c'.sheet.root ∧
      keys c.sheet.media <+: keys c'.sheet.media ∧
      ∀ part ∈ c.sheet.media, ∃ part' ∈ c'.sheet.media,
        part'.1 = part.1 ∧ keys part.2 <+: keys part'.2 := by
  obtain ⟨more, rfl⟩ := initial
  have grows := tokens.grows_table more settings.scope
  obtain rfl := eq_layout_of_compile compiled
  refine ⟨_, Group.compile_of_append compiled, ?_, tokens.isPrefix_references more settings,
    ?_, ?_, ?_⟩
  · rw [nameEntries_layout, nameEntries_layout]
    exact (NameTable.isPrefix_entries grows).map _
  · simp only [Group.layout, tokens.namedWrites_append more]
    exact NameTable.isPrefix_keys_block grows Group.mem_bareNames_of_write _
  · simp only [Group.layout, tokens.namedMediaWrites_append more]
    exact NameTable.isPrefix_keys_blocks _ _
  · simp only [Group.layout, tokens.namedMediaWrites_append more]
    exact NameTable.exists_longer_block grows Group.mem_bareNames_of_mediaWrite _

-- The added tokens take the name of an earlier one and use its media name again.
def Group.samples : Group :=
  Group.sample ++ [("a-b", .scalar (.text "5px")),
    ("z", .list [.group [("wide", .scalar (.text "6px"))]])]

theorem compile_appended_samples :
    Group.sample <+: Group.samples ∧ ∃ c c', compile .samples .sample = .ok c' ∧
      compile .sample .sample = .ok c ∧ c.nameEntries <+: c'.nameEntries ∧
      c.references <+: c'.references ∧ keys c.sheet.root <+: keys c'.sheet.root ∧
      keys c.sheet.media <+: keys c'.sheet.media := by
  have initial : Group.sample <+: Group.samples := List.prefix_append _ _
  obtain ⟨c', compiled⟩ := exists_of_isOk .samples .sample (by decide +kernel)
  obtain ⟨c, compiled', names, references, root, media, _⟩ :=
    compile_appended .sample .samples initial .sample c' compiled
  exact ⟨initial, c, c', compiled, compiled', names, references, root, media⟩

end DesignTokens
