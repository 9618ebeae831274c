import DesignTokens.Proofs.PathChecks

set_option autoImplicit false

namespace DesignTokens

open OrderedMap

section LastNamed

variable {α : Type} {settings : Settings} {f : Content → Option α} {name : String}

def lastNamed? (settings : Settings) (f : Content → Option α) (name : String) :
    List Leaf → Option α
  | [] => none
  | l :: rest => (lastNamed? settings f name rest).or
      (if l.authored settings = name then f l.content else none)

theorem lastNamed?_append (first second : List Leaf) :
    lastNamed? settings f name (first ++ second) =
      (lastNamed? settings f name second).or (lastNamed? settings f name first) := by
  induction first with
  | nil => simp [lastNamed?]
  | cons l rest ih => simp [lastNamed?, ih, Option.or_assoc]

theorem lastNamed?_eq_none_iff (leaves : List Leaf) :
    lastNamed? settings f name leaves = none ↔
      ∀ l ∈ leaves, l.authored settings = name → f l.content = none := by
  induction leaves with
  | nil => simp [lastNamed?]
  | cons l rest ih => simp [lastNamed?, ih, and_comm]

theorem exists_of_lastNamed? {leaves : List Leaf} {value : α}
    (found : lastNamed? settings f name leaves = some value) :
    ∃ before l after, leaves = before ++ l :: after ∧ l.authored settings = name ∧
      f l.content = some value ∧ lastNamed? settings f name after = none := by
  induction leaves with
  | nil => simp [lastNamed?] at found
  | cons l rest ih =>
    cases later : lastNamed? settings f name rest with
    | some last =>
      obtain rfl : last = value := by simpa [lastNamed?, later] using found
      obtain ⟨before, own, after, rfl, spec⟩ := ih later
      exact ⟨l :: before, own, after, rfl, spec⟩
    | none =>
      obtain ⟨same, own⟩ : l.authored settings = name ∧ f l.content = some value := by
        simpa [lastNamed?, later] using found
      exact ⟨[], l, rest, rfl, same, own, later⟩

theorem get?_reverse_writesOf (leaves : List Leaf) :
    get? (writesOf settings f leaves).reverse name = lastNamed? settings f name leaves := by
  induction leaves with
  | nil => rfl
  | cons l rest ih =>
    cases value : f l.content with
    | none =>
      have skipped : writesOf settings f (l :: rest) = writesOf settings f rest := by
        simp [writesOf, value]
      simp [skipped, ih, lastNamed?, value]
    | some own =>
      have written : writesOf settings f (l :: rest) =
          (l.authored settings, own) :: writesOf settings f rest := by
        simp [writesOf, value]
      simp [written, get?_append, get?_cons, ih, lastNamed?, value]

theorem lastNamed?_eq_none_of_nodup {before after : List Leaf} {l : Leaf}
    (nodup : ((before ++ l :: after).map (Leaf.authored settings)).Nodup) :
    lastNamed? settings f (l.authored settings) after = none := by
  simp only [List.map_append, List.map_cons, List.nodup_append, List.nodup_cons] at nodup
  refine (lastNamed?_eq_none_iff after).mpr fun later member same => ?_
  exact absurd (same ▸ List.mem_map_of_mem member) nodup.2.1.1

end LastNamed

theorem Registration.eq_of_ofValue? {value : String} {r : Registration}
    (registered : ofValue? value = some r) :
    r.initial = value ∧ isSelfContained value = true := by
  unfold ofValue? at registered
  split at registered
  next self =>
    obtain rfl := Option.some.inj registered
    exact ⟨rfl, self⟩
  next => cases registered

theorem Content.eq_plain_of_registration? {content : Content} {r : Registration}
    (registered : content.registration? = some r) :
    content = .plain r.initial ∧ Registration.ofValue? r.initial = some r ∧
      isSelfContained r.initial = true := by
  cases content with
  | plain value =>
    obtain ⟨rfl, self⟩ := Registration.eq_of_ofValue? registered
    exact ⟨rfl, registered, self⟩
  | responsive tuple => cases registered

namespace Flat

variable {tokens : Group} {settings : Settings} {T : NameTable} {c : Compilation}

theorem get?_root (flat : Flat tokens settings T c) {l : Leaf} (member : l ∈ tokens.leaves) :
    get? c.sheet.root (T.nameOf (l.authored settings)) =
      lastNamed? settings Content.value? (l.authored settings) tokens.leaves := by
  rw [flat.root, get?_renamed, get?_lastWrites, rootWrites, get?_reverse_writesOf]
  intro other declared same
  obtain ⟨w, kept, rfl⟩ := List.mem_map.mp declared
  obtain ⟨l', listed, own, _⟩ := mem_of_mem_writesOf (mem_of_mem_lastWrites kept)
  exact T.nameOf_apart (own ▸ flat.listed listed) (flat.listed member) same

theorem get?_root_of_split (flat : Flat tokens settings T c) {before after : List Leaf} {l : Leaf}
    {value : String} (sequence : tokens.leaves = before ++ l :: after)
    (own : l.content = .plain value) :
    get? c.sheet.root (T.nameOf (l.authored settings)) = some
      ((lastNamed? settings Content.value? (l.authored settings) after).getD value) := by
  rw [flat.get?_root (by simp [sequence]), sequence, lastNamed?_append]
  cases last : lastNamed? settings Content.value? (l.authored settings) after <;>
    simp [lastNamed?, last, own, Content.value?]

theorem exists_registered (flat : Flat tokens settings T c) {name : String} {r : Registration}
    (registered : (name, r) ∈ c.registrations) :
    ∃ before l after, tokens.leaves = before ++ l :: after ∧
      T.nameOf (l.authored settings) = name ∧ l.content.registration? = some r ∧
      lastNamed? settings Content.registration? (l.authored settings) after = none := by
  rw [flat.registrations] at registered
  obtain ⟨w, kept, same⟩ := List.mem_map.mp registered
  obtain ⟨own, value⟩ := Prod.mk.inj same
  have found := get?_of_mem_lastWrites kept
  rw [registrationWrites, get?_reverse_writesOf] at found
  obtain ⟨before, l, after, sequence, authored, registration, last⟩ := exists_of_lastNamed? found
  exact ⟨before, l, after, sequence, authored ▸ own, value ▸ registration, authored ▸ last⟩

theorem registered_of_leaf (flat : Flat tokens settings T c) {l : Leaf}
    (member : l ∈ tokens.leaves) (registers : l.content.registration? ≠ none) :
    ∃ r, (T.nameOf (l.authored settings), r) ∈ c.registrations := by
  cases last : lastNamed? settings Content.registration? (l.authored settings) tokens.leaves with
  | none => exact absurd ((lastNamed?_eq_none_iff _).mp last l member rfl) registers
  | some r =>
    refine ⟨r, ?_⟩
    rw [← get?_reverse_writesOf, ← get?_ofList, get?_eq_some_iff _ (distinct_ofList _),
      ofList_eq_lastWrites] at last
    rw [flat.registrations]
    exact List.mem_map_of_mem last

end Flat

/--
A property is registered if one of its values can be, and then with the last of those. The root has
that value too, unless leaves after it give the property a value that is not registered: then the root
has the last of these. None follow where the check of paths is silent.
-/
theorem registration_of_last_leaf (tokens : Group) (settings : Settings) (c : Compilation)
    (compiled : compile tokens settings = .ok c) :
    (∀ name r, (name, r) ∈ c.registrations →
      Registration.ofValue? r.initial = some r ∧ isSelfContained r.initial = true ∧
      ∃ before l after, tokens.leaves = before ++ l :: after ∧
        c.short? (l.authored settings) = some name ∧ l.content = .plain r.initial ∧
        (∀ later ∈ after, later.authored settings = l.authored settings →
          later.content.registration? = none) ∧
        get? c.sheet.root name = some
          ((lastNamed? settings Content.value? (l.authored settings) after).getD r.initial)) ∧
      (∀ l ∈ tokens.leaves, l.content.registration? ≠ none →
        ∃ name r, c.short? (l.authored settings) = some name ∧ (name, r) ∈ c.registrations) ∧
      (Check.paths tokens = [] → ∀ name r, (name, r) ∈ c.registrations →
        get? c.sheet.root name = some r.initial) := by
  obtain ⟨T, flat⟩ := flat_of_compile compiled
  refine ⟨?_, ?_, ?_⟩
  · intro name r registered
    obtain ⟨before, l, after, sequence, rfl, registration, last⟩ := flat.exists_registered registered
    obtain ⟨own, ofInitial, self⟩ := Content.eq_plain_of_registration? registration
    have named := flat.short?_leaf (l := l) (by simp [sequence])
    exact ⟨ofInitial, self, before, l, after, sequence, named, own,
      (lastNamed?_eq_none_iff after).mp last, flat.get?_root_of_split sequence own⟩
  · intro l member registers
    obtain ⟨r, registered⟩ := flat.registered_of_leaf member registers
    exact ⟨_, r, flat.short?_leaf member, registered⟩
  · intro silent name r registered
    obtain ⟨before, l, after, sequence, rfl, registration, _⟩ := flat.exists_registered registered
    obtain ⟨own, _⟩ := Content.eq_plain_of_registration? registration
    have distinct := (Check.paths_eq_nil_iff compiled).mp silent
    rw [Group.authored, sequence] at distinct
    rw [flat.get?_root_of_split sequence own, lastNamed?_eq_none_of_nodup distinct]
    rfl

def Group.forwarded : Group :=
  [("a-b", .scalar (.text "1px")), ("a", .group [("b", .scalar (.text "var(--x)"))])]

-- The later value of the property cannot be registered, and the earlier one stays so.
theorem registration_of_last_leaf_forwarded :
    ∃ c name r, compile .forwarded .sample = .ok c ∧ (name, r) ∈ c.registrations ∧
      r.initial = "1px" ∧ get? c.sheet.root name = some "var(--x)" := by
  obtain ⟨c, compiled⟩ := exists_of_isOk .forwarded .sample (by decide +kernel)
  have registrations : (compile .forwarded .sample).toOption.map Compilation.registrations =
      some [("--d0", ⟨.length, false, "1px"⟩)] := by decide +kernel
  have registered : ("--d0", ⟨.length, false, "1px"⟩) ∈ c.registrations := by
    rw [compiled] at registrations
    change some c.registrations = _ at registrations
    simp [Option.some.inj registrations]
  obtain ⟨described, _⟩ := registration_of_last_leaf _ _ c compiled
  obtain ⟨_, _, before, l, after, sequence, _, own, _, kept⟩ := described _ _ registered
  have leaves : Group.forwarded.leaves =
      [⟨["a-b"], .plain "1px"⟩, ⟨["a", "b"], .plain "var(--x)"⟩] := by rfl
  refine ⟨c, _, _, compiled, registered, rfl, ?_⟩
  rw [leaves] at sequence
  cases before with
  | nil =>
    obtain ⟨rfl, rfl⟩ := List.cons.inj sequence
    exact kept.trans (by decide)
  | cons first earlier =>
    obtain ⟨_, sequence⟩ := List.cons.inj sequence
    cases earlier with
    | nil =>
      obtain ⟨rfl, _⟩ := List.cons.inj sequence
      simp at own
    | cons => simp at sequence

end DesignTokens
