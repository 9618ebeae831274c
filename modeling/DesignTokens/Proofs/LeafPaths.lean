import Mathlib.Data.List.Forall2
import DesignTokens.Check.Paths
import DesignTokens.Proofs.ContentOrigins
import DesignTokens.Proofs.ReferenceMirror

set_option autoImplicit false

namespace DesignTokens

namespace Outline

def Faultless : Outline → Prop
  | .nil => True
  | .leaf _ _ rest => rest.Faultless
  | .blank _ rest => rest.Faultless
  | .faulty .. => False
  | .group _ members rest => members.Faultless ∧ rest.Faultless

def paths (path : List String) : Outline → List (List String)
  | .nil => []
  | .leaf key _ rest => (path ++ [key]) :: rest.paths path
  | .blank _ rest => rest.paths path
  | .faulty _ _ rest => rest.paths path
  | .group key members rest => members.paths (path ++ [key]) ++ rest.paths path

theorem paths_eq (path : List String) (o : Outline) :
    o.paths path = ((o.events path).filterMap Event.leaf?).map Leaf.path := by
  induction o generalizing path with
  | nil => rfl
  | leaf key content rest ih => simp [paths, events, Event.leaf?, ih]
  | blank key rest ih => exact ih path
  | faulty key fault rest ih => exact ih path
  | group key members rest ihm ihr => simp [paths, events, ihm, ihr]

theorem ne_nil_of_mem_paths {path : List String} {o : Outline} :
    ∀ p ∈ o.paths path, p ≠ [] := by
  induction o generalizing path with
  | nil => simp [paths]
  | leaf key content rest ih => simpa [paths] using ih
  | blank key rest ih => exact ih
  | faulty key fault rest ih => exact ih
  | group key members rest ihm ihr =>
    intro p member
    rcases List.mem_append.mp member with inside | after
    · exact ihm p inside
    · exact ihr p after

theorem paths_generated (path : List String) (entries : List (String × String)) :
    (generated entries).paths path = (entries.map Prod.fst).map fun key => path ++ [key] := by
  induction entries with
  | nil => rfl
  | cons entry rest ih =>
    obtain ⟨key, value⟩ := entry
    simp [paths, ih]

theorem paths_ofScales (path : List String) (all : List (String × Scale)) :
    (ofScales all).paths path =
      all.flatMap fun (unit, scale) => scale.map fun (key, _) => path ++ [unit, key] := by
  induction all with
  | nil => rfl
  | cons part rest ih =>
    obtain ⟨unit, scale⟩ := part
    simp [paths, paths_generated, ih]

end Outline

theorem ShadeScale.names_of_ok {text : String} {shades : List (String × String)}
    (shaded : of text = .ok shades) : shades.map Prod.fst = names := by
  obtain ⟨base, readable, scale⟩ := of_eq_ok shaded
  obtain ⟨a, b, c, d, e, f, shades⟩ := around_eq text base
  rw [scale, shades]
  rfl

namespace Outline

theorem paths_ofScalar {key : String} {inPalette : Bool} {rest : Outline} {s : Scalar}
    (faultless : (ofScalar key inPalette rest s).Faultless) (path : List String) :
    (ofScalar key inPalette rest s).paths path =
        Check.scalarPaths (path ++ [key]) inPalette s ++ rest.paths path ∧ rest.Faultless := by
  unfold ofScalar at faultless ⊢
  unfold Check.scalarPaths
  cases swatch : Role.swatch? inPalette s with
  | some text =>
    simp only [swatch] at faultless
    cases shaded : ShadeScale.of text with
    | ok shades =>
      simp only [shaded] at faultless ⊢
      exact ⟨by simp [paths, paths_generated, ShadeScale.names_of_ok shaded], faultless.2⟩
    | error fault => simp [shaded, Faultless] at faultless
  | none =>
    simp only [swatch] at faultless
    by_cases blank : s.isBlank
    · simpa [blank, paths, Faultless] using faultless
    · simpa [blank, paths, Faultless] using faultless

mutual

theorem paths_ofToken {key : String} {inPalette : Bool} {rest : Outline} {t : Token}
    (faultless : (ofToken key inPalette rest t).Faultless) (path : List String) :
    (ofToken key inPalette rest t).paths path =
        Check.leafPaths (path ++ [key]) key inPalette t ++ rest.paths path ∧ rest.Faultless := by
  cases t with
  | scalar s =>
    rw [ofToken] at faultless ⊢
    rw [Check.leafPaths]
    exact paths_ofScalar faultless path
  | group members =>
    rw [ofToken] at faultless ⊢
    rw [Check.leafPaths]
    cases shorthand : Role.scales? key members with
    | some config =>
      simp only [shorthand] at faultless
      cases expanded : Scale.ofUnits config with
      | ok all =>
        simp only [expanded] at faultless ⊢
        exact ⟨by simp [paths, paths_ofScales, Check.scalePaths, expanded], faultless.2⟩
      | error fault => simp [expanded, Faultless] at faultless
    | none =>
      simp only [shorthand] at faultless ⊢
      exact ⟨by rw [paths, paths_ofGroup faultless.1], faultless.2⟩
  | list items =>
    rw [ofToken] at faultless ⊢
    rw [Check.leafPaths]
    cases classified : Role.responsive? items with
    | some tuple =>
      simp only [classified] at faultless ⊢
      exact ⟨rfl, faultless⟩
    | none =>
      simp only [classified] at faultless ⊢
      exact ⟨by rw [paths, paths_ofList faultless.1], faultless.2⟩

theorem paths_ofGroup {inPalette : Bool} {members : List (String × Token)}
    (faultless : (ofGroup inPalette members).Faultless) (path : List String) :
    (ofGroup inPalette members).paths path = Check.leafPathsIn path inPalette members := by
  cases members with
  | nil => rfl
  | cons entry rest =>
    obtain ⟨key, t⟩ := entry
    rw [ofGroup] at faultless ⊢
    obtain ⟨paths, others⟩ := paths_ofToken faultless path
    rw [paths, Check.leafPathsIn, paths_ofGroup others]

theorem paths_ofList {inPalette : Bool} {index : Nat} {items : List Token}
    (faultless : (ofList inPalette index items).Faultless) (path : List String) :
    (ofList inPalette index items).paths path = Check.leafPathsAt path inPalette index items := by
  cases items with
  | nil => rfl
  | cons t rest =>
    rw [ofList] at faultless ⊢
    obtain ⟨paths, others⟩ := paths_ofToken faultless path
    rw [paths, Check.leafPathsAt, paths_ofList others]

end

end Outline

mutual

def Reference.leaves (path : List String) : Reference → List (List String × String)
  | .use expression => [(path, expression)]
  | .group members => Reference.leavesOf path members

def Reference.leavesOf (path : List String) :
    List (String × Reference) → List (List String × String)
  | [] => []
  | (key, reference) :: rest =>
      reference.leaves (path ++ [key]) ++ Reference.leavesOf path rest

end

mutual

theorem Reference.uses_eq (reference : Reference) (path : List String) :
    reference.uses = (reference.leaves path).map Prod.snd := by
  cases reference with
  | use expression => rfl
  | group members =>
    rw [uses, leaves]
    exact usesOf_eq members path

theorem Reference.usesOf_eq (members : References) (path : List String) :
    usesOf members = (leavesOf path members).map Prod.snd := by
  cases members with
  | nil => rfl
  | cons entry rest =>
    obtain ⟨key, reference⟩ := entry
    rw [usesOf, leavesOf, List.map_append, reference.uses_eq (path ++ [key]), usesOf_eq rest path]

end

theorem map_eq_of_forall₂ {α β γ : Type} {f : α → γ} {g : β → γ} {first : List α}
    {second : List β} (related : List.Forall₂ (fun a b => f a = g b) first second) :
    first.map f = second.map g := by
  rwa [← List.forall₂_eq_eq_eq, List.forall₂_map_left_iff, List.forall₂_map_right_iff]

theorem exists_of_forall₂ {α β : Type} {R : α → β → Prop} {first : List α} {second : List β}
    (related : List.Forall₂ R first second) :
    (∀ a ∈ first, ∃ b ∈ second, R a b) ∧ ∀ b ∈ second, ∃ a ∈ first, R a b := by
  induction related with
  | nil => simp
  | @cons a b first second here _ ih =>
    constructor
    · rw [List.forall_mem_cons]
      refine ⟨⟨b, List.mem_cons_self, here⟩, fun other member => ?_⟩
      obtain ⟨c, listed, same⟩ := ih.1 other member
      exact ⟨c, List.mem_cons_of_mem _ listed, same⟩
    · rw [List.forall_mem_cons]
      refine ⟨⟨a, List.mem_cons_self, here⟩, fun other member => ?_⟩
      obtain ⟨c, listed, same⟩ := ih.2 other member
      exact ⟨c, List.mem_cons_of_mem _ listed, same⟩

namespace Mirrors

variable {settings : Settings} {short? : String → Option String} {path : List String}
  {o : Outline} {references : References}

theorem faultless (mirrors : Mirrors settings short? path o references) : o.Faultless := by
  induction mirrors with
  | nil path => trivial
  | leaf path key content name given _ ih => exact ih
  | blank path key _ ih => exact ih
  | group path key _ _ ihm ihr => exact ⟨ihm, ihr⟩

theorem leaves_related (mirrors : Mirrors settings short? path o references) :
    List.Forall₂ (fun (entry : List String × String) (l : Leaf) => entry.1 = l.path ∧
        ∃ name, short? (l.authored settings) = some name ∧
          entry.2 = (VarCall.mk name l.content.value?).write)
      (Reference.leavesOf path references) ((o.events path).filterMap Event.leaf?) := by
  induction mirrors with
  | nil path => exact .nil
  | leaf path key content name given _ ih =>
    simp only [Reference.leavesOf, Reference.leaves, Outline.events, Event.leaf?,
      List.filterMap_cons]
    exact .cons ⟨rfl, name, given, rfl⟩ ih
  | blank path key _ ih => exact ih
  | group path key _ _ ihm ihr =>
    rw [Outline.events, List.filterMap_append]
    exact List.rel_append ihm ihr

theorem paths_leaves (mirrors : Mirrors settings short? path o references) :
    (Reference.leavesOf path references).map Prod.fst = o.paths path := by
  rw [Outline.paths_eq]
  exact map_eq_of_forall₂ (mirrors.leaves_related.imp fun _ _ related => related.1)

theorem uses_leaves (mirrors : Mirrors settings short? path o references) :
    List.Forall₂ (fun expression (l : Leaf) => ∃ name, short? (l.authored settings) = some name ∧
        expression = (VarCall.mk name l.content.value?).write)
      (Reference.usesOf references) ((o.events path).filterMap Event.leaf?) := by
  rw [Reference.usesOf_eq references path, List.forall₂_map_left_iff]
  exact mirrors.leaves_related.imp fun _ _ related => related.2

end Mirrors

section Leaves

variable {tokens : Group} {settings : Settings} {short? : String → Option String}
  {references : References} (mirrors : Mirrors settings short? [] tokens.outline references)

include mirrors in
theorem exists_leaf_of_reference {path : List String} {expression : String}
    (listed : (path, expression) ∈ Reference.leavesOf [] references) :
    ∃ l ∈ tokens.leaves, l.path = path ∧ ∃ name, short? (l.authored settings) = some name ∧
      expression = (VarCall.mk name l.content.value?).write := by
  obtain ⟨l, member, same, written⟩ := (exists_of_forall₂ mirrors.leaves_related).1 _ listed
  exact ⟨l, member, same.symm, written⟩

include mirrors in
theorem exists_reference_of_leaf {l : Leaf} (member : l ∈ tokens.leaves) :
    ∃ expression, (l.path, expression) ∈ Reference.leavesOf [] references := by
  obtain ⟨⟨path, expression⟩, listed, same, _⟩ :=
    (exists_of_forall₂ mirrors.leaves_related).2 l member
  obtain rfl : path = l.path := same
  exact ⟨expression, listed⟩

end Leaves

theorem listed_of_compile {tokens : Group} {settings : Settings} {c : Compilation}
    (compiled : compile tokens settings = .ok c) {leaf : List String × String}
    (reads : ((compile tokens settings).toOption.any fun c =>
      leaf ∈ Reference.leavesOf [] c.references) = true) :
    leaf ∈ Reference.leavesOf [] c.references := by
  simpa [compiled, Except.toOption] using reads

end DesignTokens
