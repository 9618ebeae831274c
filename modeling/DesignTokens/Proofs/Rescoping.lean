import DesignTokens.Proofs.AlikeCompilations
import DesignTokens.Proofs.PropertyNames

set_option autoImplicit false

namespace DesignTokens

open OrderedMap

variable {α : Type}

namespace ShortName

/-- The property of the same number under another scope. Any other text stays as it is. -/
noncomputable def rescope (s t : Option String) : String → String :=
  Function.extend (fun count => "--" ++ ofCount s count) (fun count => "--" ++ ofCount t count) id

theorem rescope_ofCount (s t : Option String) (count : Nat) :
    rescope s t ("--" ++ ofCount s count) = "--" ++ ofCount t count := by
  have apart : Function.Injective fun count => "--" ++ ofCount s count := fun i j same =>
    ofCount_injective s i j ((String.append_right_inj "--").mp same)
  exact apart.extend_apply _ _ count

end ShortName

inductive SameShape (named : String → String → Prop) : References → References → Prop where
  | nil : SameShape named [] []
  | use (key name other : String) (fallback : Option String) {rest rest' : References} :
      named name other → SameShape named rest rest' →
      SameShape named ((key, .use (VarCall.mk name fallback).write) :: rest)
        ((key, .use (VarCall.mk other fallback).write) :: rest')
  | group (key : String) {members members' rest rest' : References} :
      SameShape named members members' → SameShape named rest rest' →
      SameShape named ((key, .group members) :: rest) ((key, .group members') :: rest')

theorem Outline.sameShape {named : String → String → Prop} {short other : List String → String}
    {path : List String} (o : Outline) (agree : ∀ p ∈ o.paths path, named (short p) (other p)) :
    SameShape named (o.references short path) (o.references other path) := by
  induction o generalizing path with
  | nil => exact .nil
  | leaf key content rest ih =>
    rw [paths, List.forall_mem_cons] at agree
    exact .use key _ _ _ agree.1 (ih agree.2)
  | blank key rest ih => exact ih agree
  | faulty key fault rest ih => exact ih agree
  | group key members rest ihm ihr =>
    rw [paths, List.forall_mem_append] at agree
    exact .group key (ihm agree.1) (ihr agree.2)

structure Compilation.Renamed (rename : String → String) (c c' : Compilation) : Prop where
  named : c'.names.isSome = c.names.isSome
  names : c'.nameEntries = renamed rename c.nameEntries
  root : c'.sheet.root = renamed rename c.sheet.root
  media : c'.sheet.media = c.sheet.media.map fun part => (part.1, renamed rename part.2)
  registrations : c'.registrations = renamed rename c.registrations
  references : SameShape (fun name other => name ∈ c.shorts ∧ other = rename name)
    c.references c'.references

namespace NameTable

variable {t t' : NameTable} {rename : String → String}

theorem block_renamed {writes : List (String × α)}
    (agree : ∀ name ∈ keys writes, t'.nameOf name = rename (t.nameOf name)) :
    t'.block writes = renamed rename (t.block writes) := by
  simp only [block, renamed, List.map_map]
  refine List.map_congr_left fun w kept => ?_
  have written := List.mem_map_of_mem (f := Prod.fst) (mem_of_mem_lastWrites kept)
  simp [agree w.1 written]

theorem blocks_renamed {writes : List (String × String × String)}
    (agree : ∀ w ∈ writes, t'.nameOf w.2.1 = rename (t.nameOf w.2.1)) :
    t'.blocks writes = (t.blocks writes).map fun part => (part.1, renamed rename part.2) := by
  rw [blocks_eq, blocks_eq, List.map_map]
  refine List.map_congr_left fun query _ => ?_
  have inside : ∀ name ∈ keys (within writes query), t'.nameOf name = rename (t.nameOf name) := by
    intro name member
    obtain ⟨w, written, rfl⟩ := mem_keys_of_mem_within member
    exact agree w written
  simp only [Function.comp_apply, block_renamed inside]

end NameTable

namespace Group

variable (tokens : Group) (s t : Option String)

theorem nameOf_rescope {name : String} (listed : name ∈ tokens.bareNames) :
    (tokens.table t).nameOf name =
      ShortName.rescope s t ((tokens.table s).nameOf name) := by
  obtain ⟨count, numbered⟩ := Option.isSome_iff_exists.mp (List.isSome_idxOf?.mpr listed)
  simp only [NameTable.nameOf, NameTable.short?, table, numbered, Option.map_some,
    Option.getD_some, NameTable.property, ShortName.rescope_ofCount]

theorem entries_rescope :
    (tokens.table t).entries = renamed (ShortName.rescope s t) (tokens.table s).entries := by
  simp [NameTable.entries, renamed, table, NameTable.property, ShortName.rescope_ofCount]

theorem layout_rescope (pathPrefix : Option String) (media : List (String × String)) :
    Compilation.Renamed (ShortName.rescope s t) (tokens.layout ⟨pathPrefix, s, media⟩)
      (tokens.layout ⟨pathPrefix, t, media⟩) where
  named := by rw [isSome_names_layout, isSome_names_layout]
  names := by
    rw [nameEntries_layout, nameEntries_layout, tokens.entries_rescope s t]
    simp only [renamed, List.map_map]
    rfl
  root := NameTable.block_renamed fun name written =>
    tokens.nameOf_rescope s t (mem_bareNames_of_write name written)
  media := NameTable.blocks_renamed fun w written =>
    tokens.nameOf_rescope s t (mem_bareNames_of_mediaWrite w written)
  registrations := NameTable.block_renamed fun name written =>
    tokens.nameOf_rescope s t (mem_bareNames_of_write name written)
  references := by
    refine tokens.outline.sameShape fun path listed => ?_
    have own := mem_bareNames_of_path listed
    refine ⟨?_, tokens.nameOf_rescope s t own⟩
    rw [Compilation.shorts, nameEntries_layout, List.map_map]
    change _ ∈ (tokens.table s).entries.map Prod.fst
    rw [NameTable.shorts_eq _ (nodup_eraseDups _)]
    exact List.mem_map_of_mem own

end Group

/--
The scope only names: under any two scopes a group fails with the same fault or compiles to the same
declarations, registrations and references, with each short name replaced by the one of its number.
-/
theorem compile_scope_only_renames (tokens : Group) (pathPrefix : Option String)
    (media : List (String × String)) (s t : Option String) :
    (∀ count, ShortName.rescope s t ("--" ++ ShortName.ofCount s count) =
        "--" ++ ShortName.ofCount t count) ∧
      Alike (· = ·) (Compilation.Renamed (ShortName.rescope s t))
        (compile tokens ⟨pathPrefix, s, media⟩) (compile tokens ⟨pathPrefix, t, media⟩) := by
  refine ⟨ShortName.rescope_ofCount s t, compile_alike ?_ (tokens.layout_rescope s t _ _)⟩
  -- A fault has only the authored name of its property, and the scope is no part of that.
  have same : tokens.fault? ⟨pathPrefix, s, media⟩ = tokens.fault? ⟨pathPrefix, t, media⟩ := rfl
  rw [same]
  cases tokens.fault? ⟨pathPrefix, t, media⟩ with
  | none => exact .none
  | some fault => exact .some rfl

end DesignTokens
