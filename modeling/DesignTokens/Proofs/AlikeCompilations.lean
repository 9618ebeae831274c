import DesignTokens.Proofs.Layout

set_option autoImplicit false

namespace DesignTokens

inductive Alike (faults : Fault → Fault → Prop) (results : Compilation → Compilation → Prop) :
    Except Fault Compilation → Except Fault Compilation → Prop where
  | error {e e' : Fault} : faults e e' → Alike faults results (.error e) (.error e')
  | ok {c c' : Compilation} : results c c' → Alike faults results (.ok c) (.ok c')

theorem Alike.exists_of_ok {faults : Fault → Fault → Prop}
    {results : Compilation → Compilation → Prop} {c : Compilation} {x : Except Fault Compilation}
    (alike : Alike faults results (.ok c) x) : ∃ c', x = .ok c' ∧ results c c' := by
  cases alike with
  | ok same => exact ⟨_, rfl, same⟩

inductive Fault.SameAt (first second : List String → String) : Fault → Fault → Prop where
  | same (fault : Fault) : SameAt first second fault fault
  | media (name : String) (path : List String) :
      SameAt first second (.unknownMedia name (first path)) (.unknownMedia name (second path))

theorem compile_alike {tokens tokens' : Group} {settings settings' : Settings}
    {faults : Fault → Fault → Prop} {results : Compilation → Compilation → Prop}
    (failing : Option.Rel faults (tokens.fault? settings) (tokens'.fault? settings'))
    (passing : results (tokens.layout settings) (tokens'.layout settings')) :
    Alike faults results (compile tokens settings) (compile tokens' settings') := by
  rw [compile_eq_layout, compile_eq_layout]
  generalize tokens.fault? settings = fault?, tokens'.fault? settings' = fault?' at failing
  cases failing with
  | none => exact .ok passing
  | some same => exact .error same

theorem rel_findSome? {α β : Type} {R : β → β → Prop} {f g : α → Option β} (l : List α)
    (each : ∀ a, Option.Rel R (f a) (g a)) : Option.Rel R (l.findSome? f) (l.findSome? g) := by
  induction l with
  | nil => exact .none
  | cons a rest ih =>
    have here := each a
    rw [findSome?_cons_or, findSome?_cons_or]
    generalize f a = first, g a = second at here
    cases here with
    | none => exact ih
    | some same => exact .some same

section Faults

variable {settings settings' : Settings} (media : settings.media = settings'.media)
  (first second : List String → String)

include media in
theorem Content.fault?_rel (path : List String) (c : Content) :
    Option.Rel (Fault.SameAt first second) (c.fault? settings (first path))
      (c.fault? settings' (second path)) := by
  cases c with
  | plain value => exact .none
  | responsive tuple =>
    refine rel_findSome? tuple.media fun entry => ?_
    unfold mediaFault?
    rw [media]
    split
    next => exact .none
    next => exact .some (.media entry.1 path)

include media in
theorem Event.fault?_rel (e : Event) :
    Option.Rel (Fault.SameAt first second) (e.fault? settings first)
      (e.fault? settings' second) := by
  cases e with
  | leaf l => exact l.content.fault?_rel media first second l.path
  | blank path => exact .none
  | fault f => exact .some (.same f)

end Faults

/--
The prefix shows in authored names only: under any two prefixes a group fails or compiles alike, with the
same declarations, references and registrations and the same short names.
-/
theorem compile_prefix_only_names (tokens : Group) (scope : Option String)
    (media : List (String × String)) (first second : Option String) :
    Alike (Fault.SameAt (authoredName ⟨first, scope, media⟩) (authoredName ⟨second, scope, media⟩))
      (fun c c' => c.sheet = c'.sheet ∧ c.references = c'.references ∧
        c.registrations = c'.registrations ∧ c.names.isSome = c'.names.isSome ∧
        ∃ entries : List (String × String),
          (c.nameEntries = entries.map fun e => (e.1, "--" ++ leadOf first ++ e.2)) ∧
          c'.nameEntries = entries.map fun e => (e.1, "--" ++ leadOf second ++ e.2))
      (compile tokens ⟨first, scope, media⟩) (compile tokens ⟨second, scope, media⟩) := by
  refine compile_alike (rel_findSome? _ (Event.fault?_rel rfl _ _)) ?_
  refine ⟨rfl, rfl, rfl, ?_, (tokens.table scope).entries, nameEntries_layout _ _,
    nameEntries_layout _ _⟩
  rw [isSome_names_layout, isSome_names_layout]

end DesignTokens
