import DesignTokens.Proofs.LeafSequence

set_option autoImplicit false

namespace DesignTokens

/--
References with the members of an outline in order, at the paths they were compiled at. Only blank
members are dropped, and a faulty one has no references at all.
-/
inductive Mirrors (settings : Settings) (short? : String → Option String) :
    List String → Outline → References → Prop where
  | nil (path : List String) : Mirrors settings short? path .nil []
  | leaf (path : List String) (key : String) (content : Content) {rest : Outline}
      {references : References} (name : String) :
      short? (authoredName settings (path ++ [key])) = some name →
      Mirrors settings short? path rest references →
      Mirrors settings short? path (.leaf key content rest)
        ((key, .use (VarCall.mk name content.value?).write) :: references)
  | blank (path : List String) (key : String) {rest : Outline} {references : References} :
      Mirrors settings short? path rest references →
      Mirrors settings short? path (.blank key rest) references
  | group (path : List String) (key : String) {members rest : Outline}
      {inner references : References} :
      Mirrors settings short? (path ++ [key]) members inner →
      Mirrors settings short? path rest references →
      Mirrors settings short? path (.group key members rest) ((key, .group inner) :: references)

mutual

def Reference.uses : Reference → List String
  | .use expression => [expression]
  | .group members => usesOf members

def Reference.usesOf : List (String × Reference) → List String
  | [] => []
  | (_, reference) :: rest => reference.uses ++ usesOf rest

end

namespace Compile

open NameTable

theorem walk_mirrors {settings : Settings} {T : NameTable} {path : List String} {o : Outline}
    {d d' : Draft} {references : References}
    (run : exec (walk settings path o) d = (.ok references, d')) (grows : Grows d'.names T) :
    Mirrors settings T.short? path o references := by
  -- A name given on the way is looked up in the last table, so growth is carried along the rest.
  induction o generalizing path d d' references with
  | nil =>
    obtain ⟨rfl, rfl⟩ : _ ∧ _ := by simpa [walk] using run
    exact .nil path
  | leaf key c rest ih =>
    obtain ⟨reference, next, first, run⟩ := exec_bind_ok run
    obtain ⟨others, _, later, last⟩ := exec_bind_ok run
    obtain ⟨rfl, rfl⟩ : _ ∧ _ := by simpa using last
    have nextGrows := grows_trans (walk_records later (grows_refl _)).grows grows
    obtain ⟨_, name, given, rfl⟩ := content_records first nextGrows
    exact .leaf path key c name given (ih later grows)
  | blank key rest ih =>
    obtain ⟨_, next, _, later⟩ := exec_bind_ok run
    exact .blank path key (ih later grows)
  | faulty key fault rest ih => simp [walk] at run
  | group key members rest ihm ihr =>
    obtain ⟨inner, next, first, run⟩ := exec_bind_ok run
    obtain ⟨others, _, later, last⟩ := exec_bind_ok run
    obtain ⟨rfl, rfl⟩ : _ ∧ _ := by simpa using last
    have nextGrows := grows_trans (walk_records later (grows_refl _)).grows grows
    exact .group path key (ihm first nextGrows) (ihr later grows)

end Compile

theorem flat_mirrors_of_compile {tokens : Group} {settings : Settings} {c : Compilation}
    (compiled : compile tokens settings = .ok c) :
    ∃ T, Flat tokens settings T c ∧ Mirrors settings c.short? [] tokens.outline c.references := by
  obtain ⟨references, d, run, finishes⟩ := Compile.finishes_of_compile compiled
  have flat := flat_of_walk run finishes
  have same : c.short? = d.names.short? := funext flat.short?_eq
  refine ⟨d.names, flat, ?_⟩
  obtain rfl := finishes
  rw [same]
  exact Compile.walk_mirrors run (NameTable.grows_refl d.names)

/--
The references of a compilation mirror the group: they keep its keys and their order, without those
of blank tokens, and each leaf has the expression of the short name given to its own path.
-/
theorem compile_references_mirror (tokens : Group) (settings : Settings) (c : Compilation)
    (compiled : compile tokens settings = .ok c) :
    Mirrors settings c.short? [] tokens.outline c.references := by
  obtain ⟨T, _, mirrors⟩ := flat_mirrors_of_compile compiled
  exact mirrors

theorem compile_references_mirror_sample :
    ∃ c, compile .sample .sample = .ok c ∧
      Mirrors .sample c.short? [] Group.sample.outline c.references := by
  obtain ⟨c, compiled⟩ := compile_sample
  exact ⟨c, compiled, compile_references_mirror .sample .sample c compiled⟩

end DesignTokens
