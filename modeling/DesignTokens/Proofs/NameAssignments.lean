import DesignTokens.Proofs.NameTables

set_option autoImplicit false

namespace DesignTokens

open OrderedMap ShortName

structure NameMaps where
  scope : Option String
  forward : List (String × String)
  reverse : List (String × String)

namespace NameMaps

def empty (scope : Option String) : NameMaps := ⟨scope, [], []⟩

def assign (maps : NameMaps) (name : String) : String × NameMaps :=
  match get? maps.forward name with
  | some short => (short, maps)
  | none =>
      let short := "--" ++ ofCount maps.scope maps.forward.length
      (short, { maps with
        forward := insert maps.forward name short
        reverse := insert maps.reverse short name })

end NameMaps

def assignEach {σ : Type} (assign : σ → String → String × σ) :
    σ → List String → List String × σ
  | table, [] => ([], table)
  | table, name :: rest =>
      let (short, next) := assign table name
      let (shorts, last) := assignEach assign next rest
      (short :: shorts, last)

namespace NameTable

def maps (t : NameTable) : NameMaps := ⟨t.scope, t.entries.map Prod.swap, t.entries⟩

theorem entries_concat (t : NameTable) (name : String) :
    entries { t with authored := t.authored ++ [name] } =
      t.entries ++ [(t.property t.size, name)] := by
  simp [entries, size, property, List.zipIdx_append]

theorem property_size_absent (t : NameTable) : t.property t.size ∉ keys t.entries := by
  intro listed
  obtain ⟨count, inside, same⟩ := (t.mem_shorts_iff _).mp listed
  have equal := t.property_injective _ _ same
  omega

theorem get?_numbered (f : Nat → String) (names : List String) (start : Nat) (name : String) :
    get? ((names.zipIdx start).map fun n => (n.1, f n.2)) name =
      (names.idxOf? name).map fun count => f (start + count) := by
  induction names generalizing start with
  | nil => rfl
  | cons first rest ih =>
    rw [List.zipIdx_cons, List.map_cons, get?_cons, ih, List.idxOf?_cons]
    by_cases same : first = name
    · simp [same]
    · simp [same, Function.comp_def, Nat.add_assoc, Nat.add_comm 1]

theorem get?_forward (t : NameTable) (name : String) :
    get? t.maps.forward name = t.short? name := by
  have swapped : t.maps.forward = t.authored.zipIdx.map fun n => (n.1, t.property n.2) := by
    simp [maps, entries]
  simp [swapped, get?_numbered, short?]

theorem get?_reverse (t : NameTable) (short : String) :
    get? t.maps.reverse short = t.authored? short := by
  unfold maps authored?
  induction t.entries with
  | nil => rfl
  | cons entry rest ih =>
    by_cases same : entry.1 = short <;> simp [get?_cons, same, ih]

theorem maps_assign (t : NameTable) (name : String) :
    t.maps.assign name = ((t.assign name).1, (t.assign name).2.maps) := by
  unfold NameMaps.assign assign
  rw [get?_forward, short?]
  cases found : t.authored.idxOf? name with
  | some count => rfl
  | none =>
    have number : t.maps.forward.length = t.size := by simp [maps, entries, size]
    have absent : name ∉ keys t.maps.forward := by
      rw [mem_keys_iff]
      simp [get?_forward, short?, found]
    have fresh : t.property t.size ∉ keys t.maps.reverse := t.property_size_absent
    have longer := t.entries_concat name
    simp only [Option.map_none, number, insert_absent _ absent]
    change (t.property t.size, NameMaps.mk _ _ (insert t.maps.reverse (t.property t.size) name)) = _
    rw [insert_absent _ fresh]
    simp only [maps, longer, List.map_append]
    rfl

theorem assignEach_maps (t : NameTable) (names : List String) :
    assignEach NameMaps.assign t.maps names =
      ((assignEach assign t names).1, (assignEach assign t names).2.maps) := by
  induction names generalizing t with
  | nil => rfl
  | cons name rest ih => simp only [assignEach, maps_assign, ih]

theorem assignEach_snd (t : NameTable) (names : List String) :
    (assignEach assign t names).2 = t.assignAll names := by
  induction names generalizing t with
  | nil => rfl
  | cons name rest ih => exact ih (t.assign name).2

-- What is answered once is what the last table says, for names are only added.
theorem assignEach_fst (t : NameTable) (names : List String) :
    (assignEach assign t names).1 = names.map (t.assignAll names).nameOf := by
  induction names generalizing t with
  | nil => rfl
  | cons name rest ih =>
    have grows := grows_assignAll (t.assign name).2 rest
    have first : ((t.assign name).2.assignAll rest).nameOf name = (t.assign name).1 :=
      nameOf_eq (short?_of_grows grows (t.short?_assign name))
    rw [assignEach, List.map_cons]
    change (t.assign name).1 :: (assignEach assign (t.assign name).2 rest).1 =
      ((t.assign name).2.assignAll rest).nameOf name ::
        rest.map ((t.assign name).2.assignAll rest).nameOf
    rw [first, ih]

theorem assign_of_mem (t : NameTable) {name : String} (listed : name ∈ t.authored) :
    t.assign name = (t.nameOf name, t) := by
  obtain ⟨count, position⟩ := Option.isSome_iff_exists.mp (List.isSome_idxOf?.mpr listed)
  simp [assign, nameOf, short?, position]

theorem short?_eq_some_iff (t : NameTable) (distinct : t.authored.Nodup) (name short : String) :
    t.short? name = some short ↔ ∃ count, t.authored[count]? = some name ∧ t.property count = short := by
  constructor
  · intro given
    obtain ⟨count, position, rfl⟩ := Option.map_eq_some_iff.mp given
    obtain ⟨inside, found, _⟩ := List.idxOf?_eq_some_iff.mp position
    exact ⟨count, List.getElem?_eq_some_iff.mpr ⟨inside, found⟩, rfl⟩
  · rintro ⟨count, found, rfl⟩
    obtain ⟨inside, rfl⟩ := List.getElem?_eq_some_iff.mp found
    exact t.short?_getElem distinct count inside

theorem authored?_eq_some_iff (t : NameTable) (distinct : t.authored.Nodup) (name short : String) :
    t.authored? short = some name ↔ t.short? name = some short := by
  have reverse : get? t.maps.reverse short = some name ↔ (short, name) ∈ t.entries :=
    get?_eq_some_iff _ (t.distinct_entries distinct) short name
  rw [← get?_reverse, reverse, t.mem_entries_iff, t.short?_eq_some_iff distinct]

end NameTable

def numberedName (scope : Option String) (names : List String) (name : String) : String :=
  "--" ++ ofCount scope (names.eraseDups.idxOf name)

theorem nameOf_assignAll (scope : Option String) {names : List String} {name : String}
    (listed : name ∈ names) :
    ((NameTable.empty scope).assignAll names).nameOf name = numberedName scope names name := by
  have authored := NameTable.authored_assignAll scope names
  have ownScope : ((NameTable.empty scope).assignAll names).scope = scope :=
    NameTable.scope_assignAll _ names
  obtain ⟨count, position⟩ := Option.isSome_iff_exists.mp
    (List.isSome_idxOf?.mpr (List.mem_eraseDups.mpr listed))
  simp [NameTable.nameOf, NameTable.short?, NameTable.property, authored, ownScope, numberedName,
    position, List.idxOf_eq_getD_idxOf?]

/--
Names assigned one after another to a new table: the different ones are numbered in the order in which they
come, a name that comes again changes nothing, and short and authored names determine each other. Two maps
that are written separately answer the same.
-/
theorem assignEach_bijective (scope : Option String) (names : List String) :
    ∃ (answers : List String) (table : NameTable) (maps : NameMaps),
      assignEach NameTable.assign (.empty scope) names = (answers, table) ∧
      assignEach NameMaps.assign (.empty scope) names = (answers, maps) ∧
      answers = names.map (numberedName scope names) ∧
      (∀ name ∈ names, table.assign name = (numberedName scope names name, table)) ∧
      (∀ name short, table.authored? short = some name ↔ table.short? name = some short) ∧
      table.size = names.eraseDups.length ∧
      (table.entries = names.eraseDups.zipIdx.map fun n => ("--" ++ ofCount scope n.2, n.1)) ∧
      (∀ name, get? maps.forward name = table.short? name) ∧
      (∀ short, get? maps.reverse short = table.authored? short) ∧
      maps.reverse = table.entries := by
  let table := (NameTable.empty scope).assignAll names
  have authored : table.authored = names.eraseDups := NameTable.authored_assignAll scope names
  have ownScope : table.scope = scope := NameTable.scope_assignAll _ names
  have distinct : table.authored.Nodup := authored ▸ nodup_eraseDups names
  have numbered : ∀ name ∈ names, table.nameOf name = numberedName scope names name :=
    fun name listed => nameOf_assignAll scope listed
  have ran : assignEach NameTable.assign (.empty scope) names = (names.map table.nameOf, table) :=
    Prod.ext (NameTable.assignEach_fst _ names) (NameTable.assignEach_snd _ names)
  have alike := NameTable.assignEach_maps (.empty scope) names
  rw [ran] at alike
  refine ⟨_, table, table.maps, ran, alike, List.map_congr_left numbered, ?_,
    table.authored?_eq_some_iff distinct, ?_, ?_, table.get?_forward, table.get?_reverse, rfl⟩
  · intro name listed
    have known : name ∈ table.authored := by rwa [authored, List.mem_eraseDups]
    rw [table.assign_of_mem known, numbered name listed]
  · rw [NameTable.size, authored]
  · simp only [NameTable.entries, NameTable.property, authored, ownScope]

theorem assignEach_bijective_repeated :
    "--bg" ∈ ["--bg", "--fg", "--bg"] ∧ ∃ (table : NameTable) (maps : NameMaps),
      assignEach NameTable.assign (.empty (some "d")) ["--bg", "--fg", "--bg"] =
        (["--d0", "--d1", "--d0"], table) ∧
      assignEach NameMaps.assign (.empty (some "d")) ["--bg", "--fg", "--bg"] =
        (["--d0", "--d1", "--d0"], maps) ∧
      table.assign "--bg" = ("--d0", table) ∧ table.size = 2 ∧
      table.entries = [("--d0", "--bg"), ("--d1", "--fg")] ∧ maps.reverse = table.entries := by
  have listed : "--bg" ∈ ["--bg", "--fg", "--bg"] := by simp
  obtain ⟨answers, table, maps, ran, alike, given, again, _, size, entries, _, _, reverse⟩ :=
    assignEach_bijective (some "d") ["--bg", "--fg", "--bg"]
  obtain rfl : answers = ["--d0", "--d1", "--d0"] := given.trans (by decide +kernel)
  refine ⟨listed, table, maps, ran, alike, ?_, size, ?_, reverse⟩
  · rw [again "--bg" listed]
    exact congrArg (·, table) (by decide +kernel)
  · exact entries.trans (by decide +kernel)

end DesignTokens
