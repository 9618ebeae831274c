import DesignTokens.Proofs.Leaves
import DesignTokens.Proofs.NameTables

set_option autoImplicit false

namespace DesignTokens.Compile

open OrderedMap NameTable

variable {α β : Type}

def exec (x : Step α) (d : Draft) : Except Fault α × Draft := x.run.run d

@[simp]
theorem exec_pure (a : α) (d : Draft) : exec (pure a) d = (.ok a, d) := rfl

@[simp]
theorem exec_throw (fault : Fault) (d : Draft) :
    exec (throw fault : Step α) d = (.error fault, d) := rfl

@[simp]
theorem exec_modify (f : Draft → Draft) (d : Draft) :
    exec (modify f : Step Unit) d = (.ok (), f d) := rfl

@[simp]
theorem exec_get (d : Draft) : exec (get : Step Draft) d = (.ok d, d) := rfl

theorem exec_bind (x : Step α) (f : α → Step β) (d : Draft) :
    exec (x >>= f) d = match exec x d with
      | (.ok a, next) => exec (f a) next
      | (.error fault, next) => (.error fault, next) := by
  change (match exec x d with
    | (result, next) => (ExceptT.bindCont f result).run next) = _
  rcases exec x d with ⟨fault | a, next⟩ <;> rfl

theorem exec_map (f : α → β) (x : Step α) (d : Draft) :
    exec (f <$> x) d = ((exec x d).1.map f, (exec x d).2) := by
  rw [← bind_pure_comp, exec_bind]
  rcases exec x d with ⟨fault | a, next⟩ <;> rfl

theorem exec_bind_ok {x : Step α} {f : α → Step β} {d last : Draft} {b : β}
    (run : exec (x >>= f) d = (.ok b, last)) :
    ∃ a next, exec x d = (.ok a, next) ∧ exec (f a) next = (.ok b, last) := by
  rw [exec_bind] at run
  rcases first : exec x d with ⟨fault | a, next⟩
  · simp [first] at run
  · exact ⟨a, next, rfl, by simpa [first] using run⟩

theorem exec_note (notice : Notice) (d : Draft) :
    exec (note notice) d = (.ok (), { d with notices := d.notices ++ [notice] }) := rfl

theorem exec_nameOf (property : String) (d : Draft) :
    exec (nameOf property) d =
      (.ok (d.names.assign property).1, { d with names := (d.names.assign property).2 }) := rfl

theorem exec_register (name value : String) (d : Draft) :
    exec (register name value) d =
      (.ok (), { d with
        registrations := overlay d.registrations
          (((Registration.ofValue? value).map fun r => (name, r)).toList) }) := by
  unfold register
  cases Registration.ofValue? value <;> rfl

def redeclaration (d : Draft) (property name value : String) : List Notice :=
  match get? d.sheet.root name with
  | some previous => if previous ≠ value then [.redeclared property previous value] else []
  | none => []

theorem exec_declare (property name value : String) (d : Draft) :
    exec (declare property name value) d =
      (.ok (), { d with
        sheet := d.sheet.declare name value
        notices := d.notices ++ redeclaration d property name value }) := by
  unfold declare redeclaration
  rw [exec_bind, exec_get]
  cases found : get? d.sheet.root name with
  | none => simp [found]
  | some previous =>
    by_cases same : previous = value
    · simp [found, same]
    · simp [found, same, exec_bind, exec_note]

theorem exec_leaf (settings : Settings) (path : List String) (value : String) (d : Draft) :
    let property := authoredName settings path
    let name := (d.names.assign property).1
    exec (leaf settings path value) d =
      (.ok (.use (VarCall.mk name (some value)).write),
        { names := (d.names.assign property).2
          sheet := d.sheet.declare name value
          registrations := overlay d.registrations
            (((Registration.ofValue? value).map fun r => (name, r)).toList)
          notices := d.notices ++ redeclaration d property name value }) := by
  simp [leaf, exec_bind, exec_map, exec_nameOf, exec_register, exec_declare, redeclaration,
    Except.map]

theorem exec_mediaValue (settings : Settings) (property name : String) (entry : String × Token)
    (d : Draft) :
    exec (mediaValue settings property name entry) d =
      match get? settings.media entry.1, mediaText? entry.2 with
      | none, _ => (.error (.unknownMedia entry.1 property), d)
      | some query, some value => (.ok (), { d with sheet := d.sheet.declareUnder query name value })
      | some _, none => (.ok (), { d with notices := d.notices ++ [.blankMedia property entry.1] }) := by
  obtain ⟨media, t⟩ := entry
  unfold mediaValue mediaText?
  cases known : get? settings.media media with
  | none => simp [known]
  | some query =>
    cases t with
    | scalar value =>
      by_cases blank : value.isBlank
      · simp [known, blank, exec_note]
      · simp [known, blank]
    | group members => simp [known, exec_note]
    | list items => simp [known, exec_note]

def Notice.replacement? (T : NameTable) : Notice → Option (String × String × String)
  | .redeclared property previous value => some (T.nameOf property, previous, value)
  | .blankToken _ | .blankMedia .. => none

def replaced (T : NameTable) (d : Draft) : List (String × String × String) :=
  d.notices.filterMap (Notice.replacement? T)

theorem filterMap_redeclaration {T : NameTable} {property name : String}
    (called : T.nameOf property = name) (d : Draft) (value : String) :
    (redeclaration d property name value).filterMap (Notice.replacement? T) =
      replacements d.sheet.root [(name, value)] := by
  unfold redeclaration replacements
  cases found : get? d.sheet.root name with
  | none => simp [replacements]
  | some previous =>
    by_cases same : previous = value <;>
      simp [same, replacements, Notice.replacement?, called, Option.filter]

def placed (T : NameTable) (w : String × String × String) : String × String × String :=
  (Sheet.mediaKey w.1, T.nameOf w.2.1, w.2.2)

/-- From one draft to another, exactly the leaves have been recorded, under the names of `T`. -/
structure Records (settings : Settings) (T : NameTable) (leaves : List Leaf) (d d' : Draft) :
    Prop where
  names : d'.names = d.names.assignAll (leaves.map (Leaf.authored settings))
  root : d'.sheet.root = overlay d.sheet.root (renamed T.nameOf (rootWrites settings leaves))
  media : d'.sheet.media =
    overlayWithin d.sheet.media ((mediaWrites settings leaves).map (placed T))
  registrations : d'.registrations =
    overlay d.registrations (renamed T.nameOf (registrationWrites settings leaves))
  replaced : replaced T d' = replaced T d ++
    replacements d.sheet.root (renamed T.nameOf (rootWrites settings leaves))

namespace Records

variable {settings : Settings} {T : NameTable}

theorem refl (d : Draft) : Records settings T [] d d :=
  ⟨rfl, rfl, rfl, rfl, by simp [rootWrites, writesOf, renamed, replacements]⟩

theorem trans {first second : List Leaf} {d d' d'' : Draft} (before : Records settings T first d d')
    (after : Records settings T second d' d'') : Records settings T (first ++ second) d d'' where
  names := by rw [after.names, before.names, List.map_append, assignAll_append]
  root := by
    rw [after.root, before.root, ← overlay_append, ← renamed_append]
    simp [rootWrites, writesOf]
  media := by
    rw [after.media, before.media, ← overlayWithin_append, ← List.map_append]
    simp [mediaWrites]
  registrations := by
    rw [after.registrations, before.registrations, ← overlay_append, ← renamed_append]
    simp [registrationWrites, writesOf]
  replaced := by
    rw [after.replaced, before.replaced, before.root, List.append_assoc, ← replacements_append,
      ← renamed_append]
    simp [rootWrites, writesOf]

theorem grows {leaves : List Leaf} {d d' : Draft} (records : Records settings T leaves d d') :
    Grows d.names d'.names :=
  records.names ▸ grows_assignAll d.names _

end Records

theorem leaf_records {settings : Settings} {T : NameTable} {path : List String} {value : String}
    {d d' : Draft} {reference : Reference}
    (run : exec (leaf settings path value) d = (.ok reference, d')) (grows : Grows d'.names T) :
    Records settings T [⟨path, .plain value⟩] d d' ∧
      ∃ name, T.short? (authoredName settings path) = some name ∧
        reference = .use (VarCall.mk name (some value)).write := by
  rw [exec_leaf] at run
  obtain ⟨rfl, rfl⟩ : _ ∧ _ := by simpa using run
  have given := short?_of_grows grows (short?_assign d.names (authoredName settings path))
  have called := nameOf_eq given
  refine ⟨⟨rfl, ?_, rfl, ?_, ?_⟩, _, given, rfl⟩
  · simp [Sheet.declare, rootWrites, writesOf, Content.value?, renamed, overlay, Leaf.authored,
      called]
  · cases registered : Registration.ofValue? value <;>
      simp [registrationWrites, writesOf, Content.registration?, renamed, Leaf.authored, called,
        registered]
  · simp [replaced, filterMap_redeclaration called, rootWrites, writesOf, Content.value?, renamed,
      Leaf.authored, called]

structure WritesMedia (T : NameTable) (name : String) (values : List (String × String))
    (d d' : Draft) : Prop where
  names : d'.names = d.names
  root : d'.sheet.root = d.sheet.root
  registrations : d'.registrations = d.registrations
  media : d'.sheet.media =
    overlayWithin d.sheet.media (values.map fun w => (Sheet.mediaKey w.1, name, w.2))
  replaced : replaced T d' = replaced T d

theorem mediaValue_writes {settings : Settings} (T : NameTable) {property name : String}
    {entry : String × Token} {d d' : Draft}
    (run : exec (mediaValue settings property name entry) d = (.ok (), d')) :
    WritesMedia T name (mediaValue? settings entry).toList d d' := by
  rw [exec_mediaValue] at run
  unfold mediaValue?
  cases known : get? settings.media entry.1 with
  | none => simp [known] at run
  | some query =>
    cases text : mediaText? entry.2 with
    | none =>
      obtain rfl : { d with notices := _ } = d' := by simpa [known, text] using run
      exact ⟨rfl, rfl, rfl, rfl, by simp [replaced, Notice.replacement?]⟩
    | some value =>
      obtain rfl : { d with sheet := _ } = d' := by simpa [known, text] using run
      exact ⟨rfl, rfl, rfl, rfl, rfl⟩

theorem mediaValues_write {settings : Settings} (T : NameTable) {property name : String}
    (entries : List (String × Token)) {d d' : Draft}
    (run : exec (entries.forM (mediaValue settings property name)) d = (.ok (), d')) :
    WritesMedia T name (entries.filterMap (mediaValue? settings)) d d' := by
  induction entries generalizing d with
  | nil =>
    obtain rfl : d = d' := by simpa using run
    exact ⟨rfl, rfl, rfl, rfl, rfl⟩
  | cons entry rest ih =>
    obtain ⟨_, next, first, others⟩ := exec_bind_ok run
    have written := mediaValue_writes T first
    have later := ih others
    have values : (entry :: rest).filterMap (mediaValue? settings) =
        (mediaValue? settings entry).toList ++ rest.filterMap (mediaValue? settings) := by
      cases found : mediaValue? settings entry <;> simp [found]
    refine ⟨later.names.trans written.names, later.root.trans written.root,
      later.registrations.trans written.registrations, ?_, later.replaced.trans written.replaced⟩
    rw [later.media, written.media, values, List.map_append, overlayWithin_append]

def declareDefault (property name : String) : Option String → Step Unit
  | some value => declare property name value
  | none => pure ()

theorem exec_declareDefault (property name : String) (value : Option String) (d : Draft) :
    exec (declareDefault property name value) d =
      (.ok (), { d with
        sheet := { d.sheet with
          root := overlay d.sheet.root ((value.map fun text => (name, text)).toList) }
        notices := d.notices ++ (value.map (redeclaration d property name)).getD [] }) := by
  cases value with
  | none => simp [declareDefault, overlay]
  | some text => exact exec_declare property name text d

theorem responsive_eq (settings : Settings) (path : List String) (tuple : Responsive) :
    responsive settings path tuple =
      (nameOf (authoredName settings path) >>= fun name =>
        tuple.media.forM (mediaValue settings (authoredName settings path) name) >>= fun _ =>
          declareDefault (authoredName settings path) name (tuple.default.map Scalar.toText) >>=
            fun _ => pure (.use (VarCall.mk name (tuple.default.map Scalar.toText)).write)) := by
  unfold responsive declareDefault
  cases tuple.default <;> rfl

theorem responsive_records {settings : Settings} {T : NameTable} {path : List String}
    {tuple : Responsive} {d d' : Draft} {reference : Reference}
    (run : exec (responsive settings path tuple) d = (.ok reference, d'))
    (grows : Grows d'.names T) :
    Records settings T [⟨path, .responsive tuple⟩] d d' ∧
      ∃ name, T.short? (authoredName settings path) = some name ∧
        reference = .use (VarCall.mk name (tuple.default.map Scalar.toText)).write := by
  rw [responsive_eq] at run
  obtain ⟨name, named, first, run⟩ := exec_bind_ok run
  obtain ⟨_, filled, second, run⟩ := exec_bind_ok run
  obtain ⟨_, finished, third, last⟩ := exec_bind_ok run
  have media := mediaValues_write T tuple.media second
  have declared := exec_declareDefault (authoredName settings path) name
    (tuple.default.map Scalar.toText) filled
  obtain ⟨rfl, rfl⟩ : _ ∧ _ := by simpa [exec_nameOf] using first
  obtain rfl := (Prod.mk.inj (declared.symm.trans third)).2
  obtain ⟨rfl, rfl⟩ : _ ∧ _ := by simpa using last
  have given : T.short? (authoredName settings path) =
      some (d.names.assign (authoredName settings path)).1 := by
    refine short?_of_grows grows ?_
    rw [media.names]
    exact short?_assign _ _
  have called := nameOf_eq given
  refine ⟨⟨media.names, ?_, ?_, ?_, ?_⟩, _, given, rfl⟩
  · cases fallback : tuple.default <;>
      simp [rootWrites, writesOf, Content.value?, renamed, Leaf.authored, called, media.root,
        fallback]
  · simp [mediaWrites, Content.mediaValues, placed, Leaf.authored, called, media.media,
      Function.comp_def]
  · simp [registrationWrites, writesOf, Content.registration?, renamed, overlay,
      media.registrations]
  · have earlier := media.replaced
    unfold replaced at earlier ⊢
    cases fallback : tuple.default <;>
      simp [earlier, filterMap_redeclaration called, rootWrites, writesOf, Content.value?, renamed,
        Leaf.authored, called, media.root, fallback, replacements]

theorem content_records {settings : Settings} {T : NameTable} {path : List String} {c : Content}
    {d d' : Draft} {reference : Reference}
    (run : exec (content settings path c) d = (.ok reference, d')) (grows : Grows d'.names T) :
    Records settings T [⟨path, c⟩] d d' ∧
      ∃ name, T.short? (authoredName settings path) = some name ∧
        reference = .use (VarCall.mk name c.value?).write := by
  cases c with
  | plain value => exact leaf_records run grows
  | responsive tuple => exact responsive_records run grows

theorem content_of_perform {settings : Settings} {l : Leaf} {d d' : Draft}
    (run : exec (perform settings (.leaf l)) d = (.ok (), d')) :
    ∃ reference, exec (content settings l.path l.content) d = (.ok reference, d') := by
  rw [perform, exec_map] at run
  obtain ⟨result, rfl⟩ := Prod.mk.inj run
  rcases first : exec (content settings l.path l.content) d with ⟨fault | reference, next⟩
  · simp [first, Except.map] at result
  · exact ⟨reference, rfl⟩

theorem perform_records {settings : Settings} {T : NameTable} {e : Event} {d d' : Draft}
    (run : exec (perform settings e) d = (.ok (), d')) (grows : Grows d'.names T) :
    Records settings T e.leaf?.toList d d' := by
  cases e with
  | leaf l =>
    obtain ⟨reference, recorded⟩ := content_of_perform run
    exact (content_records recorded grows).1
  | blank path =>
    obtain rfl : { d with notices := _ } = d' := by simpa [perform, exec_note] using run
    refine ⟨rfl, rfl, rfl, rfl, ?_⟩
    simp [replaced, Notice.replacement?, Event.leaf?, rootWrites, writesOf, renamed, replacements]
  | fault fault => simp [perform] at run

theorem performAll_records {settings : Settings} {T : NameTable} (events : List Event)
    {d d' : Draft} (run : exec (performAll settings events) d = (.ok (), d'))
    (grows : Grows d'.names T) : Records settings T (events.filterMap Event.leaf?) d d' := by
  induction events generalizing d with
  | nil =>
    obtain rfl : d = d' := by simpa [performAll] using run
    exact .refl d
  | cons e rest ih =>
    obtain ⟨_, next, first, others⟩ := exec_bind_ok run
    have later := ih others
    have leaves : (e :: rest).filterMap Event.leaf? =
        e.leaf?.toList ++ rest.filterMap Event.leaf? := by
      cases found : e.leaf? <;> simp [found]
    rw [leaves]
    exact (perform_records first (grows_trans later.grows grows)).trans later

theorem walk_records {settings : Settings} {T : NameTable} {path : List String} {o : Outline}
    {d d' : Draft} {references : References}
    (run : exec (walk settings path o) d = (.ok references, d')) (grows : Grows d'.names T) :
    Records settings T ((o.events path).filterMap Event.leaf?) d d' := by
  refine performAll_records (o.events path) ?_ grows
  rw [← walk_events, exec_map, run]
  rfl

def Finishes (references : References) (d : Draft) (c : Compilation) : Prop :=
  c = ⟨d.sheet, references, d.registrations, if d.names.size = 0 then none else some d.names⟩

theorem finishes_of_compile {tokens : Group} {settings : Settings} {c : Compilation}
    (compiled : compile tokens settings = .ok c) :
    ∃ references d,
      exec (walk settings [] tokens.outline) (start settings) = (.ok references, d) ∧
        Finishes references d c := by
  rw [Group.outline, ← group_eq_walk]
  have result : compile tokens settings =
      let outcome := exec (group settings [] false tokens) (start settings)
      outcome.1.map fun references => ⟨outcome.2.sheet, references, outcome.2.registrations,
        if outcome.2.names.size = 0 then none else some outcome.2.names⟩ := rfl
  rw [compiled] at result
  rcases run : exec (group settings [] false tokens) (start settings) with ⟨fault | references, d⟩
  · simp [run, Except.map] at result
  · simp only [run, Except.map, Except.ok.injEq] at result
    exact ⟨references, d, rfl, result⟩

end DesignTokens.Compile
