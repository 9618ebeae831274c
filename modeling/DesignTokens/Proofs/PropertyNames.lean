import DesignTokens.Check.Identifiers
import DesignTokens.Proofs.CallText
import DesignTokens.Proofs.LeafPaths

set_option autoImplicit false

namespace DesignTokens

open OrderedMap

-- Expressions without a reading would be passed over; a compilation writes none.
def Reference.propertyNames (references : References) : List String :=
  (usesOf references).filterMap fun expression =>
    (VarCall.read? expression).map VarCall.name

def Compilation.shorts (c : Compilation) : List String := c.nameEntries.map Prod.fst

def Settings.HasValidScope (settings : Settings) : Prop :=
  ∀ scope, settings.scope = some scope → isIdentifier scope = true

theorem Letters.isNameChar_of_mem_alphabet (c : Char) (member : c ∈ Letters.alphabet) :
    Text.isNameChar c = true := by
  have all : Letters.alphabet.all Text.isNameChar = true := by decide
  exact List.all_eq_true.mp all c member

theorem ShortName.isNameChar_word (n : Nat) :
    ∀ c ∈ Letters.word n, Text.isNameChar c = true := fun c member =>
  Letters.isNameChar_of_mem_alphabet c (Letters.spelled_word n c member)

theorem ShortName.isNameChar_digit (count : Nat) :
    Text.isNameChar (Nat.digitChar (count % 10)) = true := by
  have digits : ∀ d : Fin 10, Text.isNameChar (Nat.digitChar d) = true := by decide
  exact digits ⟨count % 10, Nat.mod_lt _ (by omega)⟩

-- The scope may hold any characters, what is counted after it may not.
theorem ShortName.exists_counted (scope : Option String) (count : Nat) :
    ∃ counted, (∀ c ∈ counted, Text.isNameChar c = true) ∧
      (ofCount scope count).toList = (scope.getD "").toList ++ counted := by
  have inName (n : Nat) :
      ∀ c ∈ Letters.word n ++ [Nat.digitChar (count % 10)], Text.isNameChar c = true := by
    intro c member
    rcases List.mem_append.mp member with letter | digit
    · exact isNameChar_word n c letter
    · exact List.mem_singleton.mp digit ▸ isNameChar_digit count
  cases scope with
  | none => exact ⟨_, inName (count / 10 + 1), by simp [toList_ofCount, stem]⟩
  | some own => exact ⟨_, inName (count / 10), by simp [toList_ofCount, stem]⟩

theorem ShortName.isNameChar_ofCount (scope : Option String) (count : Nat)
    (valid : ∀ s, scope = some s → isIdentifier s = true) :
    ∀ c ∈ (ofCount scope count).toList, Text.isNameChar c = true := by
  obtain ⟨counted, inName, spelled⟩ := exists_counted scope count
  intro c member
  rw [spelled, List.mem_append] at member
  rcases member with own | after
  · cases scope with
    | none => simp at own
    | some s =>
      have identifier := valid s rfl
      simp only [isIdentifier, Bool.and_eq_true, List.all_eq_true] at identifier
      exact identifier.2 c own
  · exact inName c after

theorem NameTable.wellNamed_of_short? (T : NameTable)
    (valid : ∀ s, T.scope = some s → isIdentifier s = true) {name short : String}
    (given : T.short? name = some short) : VarCall.WellNamed short := by
  obtain ⟨count, _, rfl⟩ := Option.map_eq_some_iff.mp given
  exact VarCall.wellNamed_of_nameChars _ (ShortName.isNameChar_ofCount T.scope count valid)

theorem filterMap_of_forall₂ {α β γ : Type} {f : α → Option γ} {g : β → γ} {first : List α}
    {second : List β} (related : List.Forall₂ (fun a b => f a = some (g b)) first second) :
    first.filterMap f = second.map g := by
  induction related with
  | nil => rfl
  | cons same _ ih => simp [same, ih]

namespace Flat

variable {tokens : Group} {settings : Settings} {T : NameTable} {c : Compilation}

theorem mem_shorts (flat : Flat tokens settings T c) (name : String) :
    name ∈ c.shorts ↔ name ∈ tokens.leaves.map fun l => T.nameOf (l.authored settings) := by
  rw [Compilation.shorts, flat.nameEntries_eq, T.shorts_eq flat.distinct, flat.authored]
  simp [Group.authored]

theorem nameOf_mem_shorts (flat : Flat tokens settings T c) {l : Leaf} (member : l ∈ tokens.leaves) :
    T.nameOf (l.authored settings) ∈ c.shorts :=
  (flat.mem_shorts _).mpr (List.mem_map_of_mem member)

theorem wellNamed (flat : Flat tokens settings T c) (valid : settings.HasValidScope)
    {name short : String} (given : c.short? name = some short) : VarCall.WellNamed short := by
  rw [flat.short?_eq] at given
  have tableValid : ∀ s, T.scope = some s → isIdentifier s = true := by
    rw [flat.scope]
    exact valid
  exact T.wellNamed_of_short? tableValid given

theorem propertyNames_eq (flat : Flat tokens settings T c) (valid : settings.HasValidScope)
    (mirrors : Mirrors settings c.short? [] tokens.outline c.references) :
    Reference.propertyNames c.references =
      tokens.leaves.map fun l => T.nameOf (l.authored settings) := by
  refine filterMap_of_forall₂ (mirrors.uses_leaves.imp ?_)
  rintro expression l ⟨name, given, written⟩
  have named := flat.wellNamed valid given
  rw [flat.short?_eq] at given
  rw [written, T.nameOf_eq given]
  exact VarCall.name_of_read?_write _ named

theorem root_spec (flat : Flat tokens settings T c) :
    ∀ d ∈ c.sheet.root, d.1 ∈ c.shorts ∧ d.2 ≠ "" := by
  intro d declared
  rw [flat.root] at declared
  obtain ⟨w, kept, rfl⟩ := List.mem_map.mp declared
  obtain ⟨l, listed, name, value⟩ := mem_of_mem_writesOf (mem_of_mem_lastWrites kept)
  refine ⟨?_, Content.value?_ne_empty (origin_of_mem_leaves listed) value⟩
  rw [← name]
  exact flat.nameOf_mem_shorts listed

theorem media_spec (flat : Flat tokens settings T c) :
    ∀ part ∈ c.sheet.media, part.2 ≠ [] ∧ ∀ d ∈ part.2, d.1 ∈ c.shorts ∧ d.2 ≠ "" := by
  intro part listed
  rw [flat.media] at listed
  obtain ⟨own, kept, rfl⟩ := List.mem_map.mp listed
  refine ⟨?_, ?_⟩
  · simpa [renamed] using lastWritesWithin_ne_nil kept
  · intro d declared
    obtain ⟨w, inside, rfl⟩ := List.mem_map.mp declared
    obtain ⟨l, member, name, value⟩ :=
      mem_of_mem_mediaWrites (mem_of_mem_lastWritesWithin kept inside)
    refine ⟨?_, Content.mediaValue_ne_empty value⟩
    simp only at name
    rw [← name]
    exact flat.nameOf_mem_shorts member

theorem registrations_spec (flat : Flat tokens settings T c) :
    ∀ entry ∈ c.registrations, entry.1 ∈ c.shorts := by
  intro entry registered
  rw [flat.registrations] at registered
  obtain ⟨w, kept, rfl⟩ := List.mem_map.mp registered
  obtain ⟨l, listed, name, _⟩ := mem_of_mem_writesOf (mem_of_mem_lastWrites kept)
  simp only [← name]
  exact flat.nameOf_mem_shorts listed

end Flat

/--
The references use exactly the short names of the table. Only such names are declared or registered,
no value is empty, and no media rule is.
-/
theorem compile_names_closed (tokens : Group) (settings : Settings) (c : Compilation)
    (valid : settings.HasValidScope) (compiled : compile tokens settings = .ok c) :
    (∀ name, name ∈ Reference.propertyNames c.references ↔ name ∈ c.shorts) ∧
      (∀ d ∈ c.sheet.root, d.1 ∈ c.shorts ∧ d.2 ≠ "") ∧
      (∀ part ∈ c.sheet.media, part.2 ≠ [] ∧ ∀ d ∈ part.2, d.1 ∈ c.shorts ∧ d.2 ≠ "") ∧
      ∀ entry ∈ c.registrations, entry.1 ∈ c.shorts := by
  obtain ⟨T, flat, mirrors⟩ := flat_mirrors_of_compile compiled
  refine ⟨?_, flat.root_spec, flat.media_spec, flat.registrations_spec⟩
  intro name
  rw [flat.mem_shorts, flat.propertyNames_eq valid mirrors]

theorem compile_names_closed_sample :
    ∃ c, Settings.sample.HasValidScope ∧ compile .sample .sample = .ok c ∧
      (∀ name, name ∈ Reference.propertyNames c.references ↔ name ∈ c.shorts) ∧
      (∀ d ∈ c.sheet.root, d.1 ∈ c.shorts ∧ d.2 ≠ "") ∧
      (∀ part ∈ c.sheet.media, part.2 ≠ [] ∧ ∀ d ∈ part.2, d.1 ∈ c.shorts ∧ d.2 ≠ "") ∧
      ∀ entry ∈ c.registrations, entry.1 ∈ c.shorts := by
  obtain ⟨c, compiled⟩ := compile_sample
  have valid : Settings.sample.HasValidScope := by
    rintro scope given
    obtain rfl := Option.some.inj given
    decide
  exact ⟨c, valid, compiled, compile_names_closed .sample .sample c valid compiled⟩

end DesignTokens
