import Mathlib.Data.List.Nodup
import DesignTokens.Proofs.LastWrites
import DesignTokens.Proofs.ShortNames

set_option autoImplicit false

namespace DesignTokens.NameTable

def Grows (t u : NameTable) : Prop :=
  u.scope = t.scope ∧ ∃ more, u.authored = t.authored ++ more

theorem grows_refl (t : NameTable) : Grows t t := ⟨rfl, [], by simp⟩

theorem grows_trans {t u v : NameTable} (first : Grows t u) (second : Grows u v) : Grows t v := by
  obtain ⟨scope, more, grown⟩ := first
  obtain ⟨scope', more', grown'⟩ := second
  exact ⟨scope'.trans scope, more ++ more', by rw [grown', grown, List.append_assoc]⟩

theorem authored_assign (t : NameTable) (name : String) :
    (t.assign name).2.authored =
      if name ∈ t.authored then t.authored else t.authored ++ [name] := by
  unfold assign
  cases found : t.authored.idxOf? name with
  | none => simp [List.idxOf?_eq_none_iff.mp found]
  | some count =>
    have member : name ∈ t.authored := by simp [← List.isSome_idxOf?, found]
    simp [member]

theorem grows_assign (t : NameTable) (name : String) : Grows t (t.assign name).2 := by
  refine ⟨scope_assign t name, ?_⟩
  rw [authored_assign]
  split
  next => exact ⟨[], by simp⟩
  next => exact ⟨[name], rfl⟩

theorem idxOf?_append (names more : List String) (name : String) (count : Nat)
    (found : names.idxOf? name = some count) : (names ++ more).idxOf? name = some count := by
  induction names generalizing count with
  | nil => simp at found
  | cons first rest ih =>
    rw [List.cons_append, List.idxOf?_cons]
    rw [List.idxOf?_cons] at found
    by_cases same : first = name
    · simpa [same] using found
    · simp only [beq_iff_eq, same, if_false, Option.map_eq_some_iff] at found ⊢
      obtain ⟨earlier, position, rfl⟩ := found
      exact ⟨earlier, ih earlier position, rfl⟩

theorem short?_of_grows {t u : NameTable} (grows : Grows t u) {name short : String}
    (given : t.short? name = some short) : u.short? name = some short := by
  obtain ⟨scope, more, grown⟩ := grows
  obtain ⟨count, position, rfl⟩ := Option.map_eq_some_iff.mp given
  refine Option.map_eq_some_iff.mpr ⟨count, ?_, by simp [property, scope]⟩
  rw [grown]
  exact idxOf?_append _ _ _ _ position

theorem short?_assign (t : NameTable) (name : String) :
    (t.assign name).2.short? name = some (t.assign name).1 := by
  unfold assign short?
  cases found : t.authored.idxOf? name with
  | some count => simp [found]
  | none =>
    have absent := List.idxOf?_eq_none_iff.mp found
    have last : (t.authored ++ [name]).idxOf? name = some t.authored.length := by
      rw [List.idxOf?_eq_some_iff]
      refine ⟨by simp, by simp, ?_⟩
      intro j earlier same
      rw [List.getElem_append_left earlier] at same
      exact absent (same ▸ List.getElem_mem earlier)
    simp [last, size, property]

theorem property_injective (t : NameTable) (i j : Nat) (same : t.property i = t.property j) :
    i = j :=
  ShortName.ofCount_injective t.scope i j (by simpa [property] using same)

theorem short?_injective (t : NameTable) {a b short : String} (first : t.short? a = some short)
    (second : t.short? b = some short) : a = b := by
  obtain ⟨i, positionA, rfl⟩ := Option.map_eq_some_iff.mp first
  obtain ⟨j, positionB, same⟩ := Option.map_eq_some_iff.mp second
  obtain rfl := t.property_injective j i same
  obtain ⟨_, foundA, _⟩ := List.idxOf?_eq_some_iff.mp positionA
  obtain ⟨_, foundB, _⟩ := List.idxOf?_eq_some_iff.mp positionB
  rw [← foundA, foundB]

theorem exists_short?_iff (t : NameTable) (name : String) :
    (∃ short, t.short? name = some short) ↔ name ∈ t.authored := by
  rw [← List.isSome_idxOf?, Option.isSome_iff_exists]
  simp [short?]

-- Only for authored names of the table.
def nameOf (t : NameTable) (name : String) : String := (t.short? name).getD ""

theorem nameOf_eq {t : NameTable} {name short : String} (given : t.short? name = some short) :
    t.nameOf name = short := by
  simp [nameOf, given]

theorem short?_eq_nameOf (t : NameTable) (name : String) (listed : name ∈ t.authored) :
    t.short? name = some (t.nameOf name) := by
  obtain ⟨short, given⟩ := (exists_short?_iff t name).mpr listed
  rw [given, nameOf_eq given]

theorem nameOf_apart (t : NameTable) {a b : String} (ha : a ∈ t.authored) (hb : b ∈ t.authored)
    (same : t.nameOf a = t.nameOf b) : a = b :=
  t.short?_injective (same ▸ t.short?_eq_nameOf a ha) (t.short?_eq_nameOf b hb)

theorem nameOf_of_grows {t u : NameTable} (grows : Grows t u) {name : String}
    (listed : name ∈ t.authored) : u.nameOf name = t.nameOf name :=
  nameOf_eq (short?_of_grows grows (t.short?_eq_nameOf name listed))

def mapNames (f : String → String) (t : NameTable) : NameTable :=
  { t with authored := t.authored.map f }

theorem idxOf?_map {f : String → String} (apart : Function.Injective f) (names : List String)
    (name : String) : (names.map f).idxOf? (f name) = names.idxOf? name := by
  induction names with
  | nil => rfl
  | cons first rest ih => simp [List.idxOf?_cons, apart.eq_iff, ih]

theorem nameOf_mapNames {f : String → String} (apart : Function.Injective f) (t : NameTable)
    (name : String) : (t.mapNames f).nameOf (f name) = t.nameOf name := by
  simp only [nameOf, short?, mapNames, idxOf?_map apart]
  rfl

theorem entries_mapNames (f : String → String) (t : NameTable) :
    (t.mapNames f).entries = t.entries.map fun e => (e.1, f e.2) := by
  simp only [entries, mapNames, List.zipIdx_map, List.map_map]
  rfl

theorem short?_getElem (t : NameTable) (distinct : t.authored.Nodup) (count : Nat)
    (inside : count < t.authored.length) :
    t.short? t.authored[count] = some (t.property count) := by
  have position : t.authored.idxOf? t.authored[count] = some count := by
    rw [List.idxOf?_eq_some_iff]
    refine ⟨inside, rfl, ?_⟩
    intro j earlier same
    have equal := (List.getElem_inj distinct).mp same
    omega
  simp [short?, position]

theorem shorts_eq (t : NameTable) (distinct : t.authored.Nodup) :
    t.entries.map Prod.fst = t.authored.map t.nameOf := by
  apply List.ext_getElem
  · simp [entries]
  · intro count _ inside
    rw [List.length_map] at inside
    simp [entries, nameOf_eq (t.short?_getElem distinct count inside)]

theorem mem_entries_iff (t : NameTable) (name short : String) :
    (short, name) ∈ t.entries ↔
      ∃ count, t.authored[count]? = some name ∧ t.property count = short := by
  simp [entries, List.mem_zipIdx_iff_getElem?, and_comm]

theorem distinct_entries (t : NameTable) (distinct : t.authored.Nodup) :
    OrderedMap.Distinct t.entries := by
  unfold OrderedMap.Distinct OrderedMap.keys
  rw [t.shorts_eq distinct]
  exact distinct.map_on fun a ha b hb => t.nameOf_apart ha hb

theorem mem_shorts_iff (t : NameTable) (short : String) :
    short ∈ t.entries.map Prod.fst ↔ ∃ count < t.size, short = t.property count := by
  simp only [entries, List.map_map, List.mem_map, List.mem_zipIdx_iff_getElem?, Prod.exists,
    Function.comp_apply, size]
  constructor
  · rintro ⟨name, count, found, rfl⟩
    exact ⟨count, (List.getElem?_eq_some_iff.mp found).1, rfl⟩
  · rintro ⟨count, inside, rfl⟩
    exact ⟨t.authored[count], count, List.getElem?_eq_getElem inside, rfl⟩

def assignAll (t : NameTable) (names : List String) : NameTable :=
  names.foldl (fun t name => (t.assign name).2) t

theorem assignAll_append (t : NameTable) (first second : List String) :
    t.assignAll (first ++ second) = (t.assignAll first).assignAll second := by
  simp [assignAll]

theorem grows_assignAll (t : NameTable) (names : List String) : Grows t (t.assignAll names) := by
  induction names generalizing t with
  | nil => exact grows_refl t
  | cons name rest ih => exact grows_trans (grows_assign t name) (ih _)

theorem scope_assignAll (t : NameTable) (names : List String) :
    (t.assignAll names).scope = t.scope := by
  induction names generalizing t with
  | nil => rfl
  | cons name rest ih => exact (ih _).trans (scope_assign t name)

theorem authored_assignAll (scope : Option String) (names : List String) :
    ((empty scope).assignAll names).authored = names.eraseDups := by
  induction names using List.reverseRecOn with
  | nil => rfl
  | append_singleton rest name ih =>
    rw [assignAll_append, OrderedMap.eraseDups_concat]
    change ((((empty scope).assignAll rest).assign name).2).authored = _
    rw [authored_assign, ih]
    simp only [List.mem_eraseDups]

end DesignTokens.NameTable
