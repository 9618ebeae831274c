import DesignTokens.Proofs.ExpansionFaults
import DesignTokens.Proofs.Records

set_option autoImplicit false

namespace DesignTokens

open OrderedMap

structure Site where
  path : List String
  role : Role

mutual

/-- The sites of a token, depth first. What is generated from a shorthand has none of its own. -/
def Token.sites (path : List String) (key : String) (inPalette : Bool) : Token → List Site
  | .scalar s => [⟨path, Role.of key inPalette (.scalar s)⟩]
  | .group members =>
      ⟨path, Role.of key inPalette (.group members)⟩ ::
        match Role.scales? key members with
        | some _ => []
        | none => Token.sitesIn path (key == paletteKey) members
  | .list items =>
      ⟨path, Role.of key inPalette (.list items)⟩ ::
        match Role.responsive? items with
        | some _ => []
        | none => Token.sitesAt path (key == paletteKey) 0 items

def Token.sitesIn (path : List String) (inPalette : Bool) : List (String × Token) → List Site
  | [] => []
  | (key, t) :: rest =>
      t.sites (path ++ [key]) key inPalette ++ Token.sitesIn path inPalette rest

def Token.sitesAt (path : List String) (inPalette : Bool) (index : Nat) :
    List Token → List Site
  | [] => []
  | t :: rest =>
      t.sites (path ++ [toString index]) (toString index) inPalette ++
        Token.sitesAt path inPalette (index + 1) rest

end

def Group.sites (tokens : Group) : List Site := Token.sitesIn [] false tokens

def mediaFault? (settings : Settings) (property : String) (entry : String × Token) :
    Option Fault :=
  if entry.1 ∈ keys settings.media then none else some (.unknownMedia entry.1 property)

namespace Site

def Sound (settings : Settings) (site : Site) : Prop :=
  match site.role with
  | .swatch text =>
      ∀ color, Oklch.read? text = some color → ShadeScale.HasRoom color.lightness
  | .scales config =>
      ∀ entry ∈ config, ScaleUnit.Known entry.1 ∧ ∃ values, entry.2.values = .ok values
  | .responsive tuple => ∀ name ∈ keys tuple.media, name ∈ keys settings.media
  | .scalar _ | .group _ | .list _ | .blank => True

def fault? (settings : Settings) (site : Site) : Option Fault :=
  match site.role with
  | .swatch text => (Oklch.read? text).bind fun color =>
      if ShadeScale.HasRoom color.lightness then none
      else some (.shadeBase text color.lightness)
  | .scales config => config.findSome? Scale.entryFault?
  | .responsive tuple =>
      tuple.media.findSome? (mediaFault? settings (authoredName settings site.path))
  | .scalar _ | .group _ | .list _ | .blank => none

theorem fault?_eq_none_iff (settings : Settings) (site : Site) :
    site.fault? settings = none ↔ site.Sound settings := by
  obtain ⟨path, role⟩ := site
  cases role with
  | swatch text => cases readable : Oklch.read? text <;> simp [fault?, Sound, readable]
  | scales config => simp [fault?, Sound, List.findSome?_eq_none_iff, Scale.entryFault?_eq_none_iff]
  | responsive tuple =>
    have declared (entry : String × Token) :
        mediaFault? settings (authoredName settings path) entry = none ↔
          entry.1 ∈ keys settings.media := by
      by_cases known : entry.1 ∈ keys settings.media <;> simp [mediaFault?, known]
    simp only [fault?, Sound, List.findSome?_eq_none_iff, declared]
    exact List.forall_mem_map.symm
  | scalar _ | group _ | list _ | blank => simp [fault?, Sound]

end Site

namespace Compile

/-- How a step fails, if it does, whatever has been made before it. -/
def Stops {α : Type} (x : Step α) (fault? : Option Fault) : Prop :=
  ∀ d, faultOf? (exec x d).1 = fault?

namespace Stops

variable {α β : Type} {first rest : Option Fault}

theorem pure (a : α) : Stops (Pure.pure a) none := fun _ => rfl

theorem throw (fault : Fault) : Stops (throw fault : Step α) (some fault) := fun _ => rfl

theorem bind {x : Step α} {f : α → Step β} (now : Stops x first) (later : ∀ a, Stops (f a) rest) :
    Stops (x >>= f) (first.or rest) := by
  intro d
  rw [exec_bind, ← now d]
  rcases exec x d with ⟨fault | a, next⟩
  · rfl
  · exact later a next

theorem bind_pure {x : Step α} {f : α → β} (now : Stops x first) :
    Stops (x >>= fun a => Pure.pure (f a)) first := by
  simpa using now.bind fun a => pure (f a)

theorem leaf (settings : Settings) (path : List String) (value : String) :
    Stops (Compile.leaf settings path value) none := by
  intro d
  rw [exec_leaf]
  rfl

theorem mediaValue (settings : Settings) (property name : String) (entry : String × Token) :
    Stops (Compile.mediaValue settings property name entry)
      (mediaFault? settings property entry) := by
  intro d
  rw [exec_mediaValue, mediaFault?]
  cases known : get? settings.media entry.1 with
  | none =>
    have undeclared : entry.1 ∉ keys settings.media := by simp [mem_keys_iff, known]
    simp [undeclared, faultOf?]
  | some query =>
    have declared : entry.1 ∈ keys settings.media := by simp [mem_keys_iff, known]
    cases mediaText? entry.2 <;> simp [declared, faultOf?]

theorem mediaValues (settings : Settings) (property name : String)
    (entries : List (String × Token)) :
    Stops (entries.forM (Compile.mediaValue settings property name))
      (entries.findSome? (mediaFault? settings property)) := by
  induction entries with
  | nil => exact pure ()
  | cons entry rest ih =>
    rw [findSome?_cons_or]
    exact (mediaValue settings property name entry).bind fun _ => ih

theorem responsive (settings : Settings) (path : List String) (tuple : Responsive) :
    Stops (Compile.responsive settings path tuple)
      (tuple.media.findSome? (mediaFault? settings (authoredName settings path))) := by
  have named : Stops (nameOf (authoredName settings path)) none := fun _ => rfl
  have defaulted (name : String) (value : Option String) :
      Stops (declareDefault (authoredName settings path) name value) none := by
    intro d
    rw [exec_declareDefault]
    rfl
  rw [responsive_eq]
  refine named.bind fun name => ?_
  simpa using (mediaValues settings _ name tuple.media).bind fun _ =>
    (defaulted name _).bind_pure

theorem generated (settings : Settings) (path : List String) (entries : List (String × String)) :
    Stops (Compile.generated settings path entries) none := by
  induction entries with
  | nil => exact pure _
  | cons entry rest ih =>
    obtain ⟨key, value⟩ := entry
    exact (leaf settings (path ++ [key]) value).bind fun _ => ih.bind_pure

theorem scales (settings : Settings) (path : List String) (all : List (String × Scale)) :
    Stops (Compile.scales settings path all) none := by
  induction all with
  | nil => exact pure _
  | cons part rest ih =>
    obtain ⟨unit, scale⟩ := part
    exact (generated settings (path ++ [unit]) scale).bind fun _ => ih.bind_pure

theorem scalar (settings : Settings) (path : List String) (key : String) (inPalette : Bool)
    (s : Scalar) :
    Stops (Compile.scalar settings path inPalette s)
      (Site.fault? settings ⟨path, .of key inPalette (.scalar s)⟩) := by
  unfold Compile.scalar
  rw [Role.of, Role.ofScalar]
  cases swatch : Role.swatch? inPalette s with
  | none =>
    by_cases blank : s.isBlank
    · simp only [blank, if_true]
      exact fun _ => rfl
    · simp only [blank]
      exact (leaf settings path s.toText).bind_pure
  | some text =>
    obtain ⟨color, readable⟩ := Role.readable_of_swatch? swatch
    have expanded : Stops (Compile.scalar.liftExcept (ShadeScale.of text))
        (Site.fault? settings ⟨path, .swatch text⟩) := by
      intro d
      simp only [Site.fault?, readable, Option.bind_some, ← ShadeScale.faultOf?_of readable]
      cases ShadeScale.of text <;> rfl
    simpa using expanded.bind fun shades => (generated settings path shades).bind_pure

mutual

theorem token (settings : Settings) (path : List String) (key : String) (inPalette : Bool)
    (t : Token) :
    Stops (Compile.token settings path key inPalette t)
      ((t.sites path key inPalette).findSome? (Site.fault? settings)) := by
  cases t with
  | scalar s =>
    rw [Compile.token, Token.sites, findSome?_cons_or]
    simpa using scalar settings path key inPalette s
  | group members =>
    rw [Compile.token, Token.sites, findSome?_cons_or, Role.of]
    cases shorthand : Role.scales? key members with
    | some config =>
      simp only [Site.fault?, ← Scale.faultOf?_ofUnits, List.findSome?_nil, Option.or_none]
      cases expanded : Scale.ofUnits config with
      | ok all => exact (scales settings path all).bind_pure
      | error fault => exact throw fault
    | none => exact (group settings path (key == paletteKey) members).bind_pure
  | list items =>
    rw [Compile.token, Token.sites, findSome?_cons_or, Role.of]
    cases classified : Role.responsive? items with
    | some tuple => simpa [Site.fault?] using (responsive settings path tuple).bind_pure
    | none => exact (list settings path (key == paletteKey) 0 items).bind_pure

theorem group (settings : Settings) (path : List String) (inPalette : Bool)
    (members : List (String × Token)) :
    Stops (Compile.group settings path inPalette members)
      ((Token.sitesIn path inPalette members).findSome? (Site.fault? settings)) := by
  cases members with
  | nil => exact pure _
  | cons entry rest =>
    obtain ⟨key, t⟩ := entry
    rw [Compile.group, Token.sitesIn, List.findSome?_append]
    refine (token settings (path ++ [key]) key inPalette t).bind fun _ => ?_
    exact (group settings path inPalette rest).bind_pure

theorem list (settings : Settings) (path : List String) (inPalette : Bool) (index : Nat)
    (items : List Token) :
    Stops (Compile.list settings path inPalette index items)
      ((Token.sitesAt path inPalette index items).findSome? (Site.fault? settings)) := by
  cases items with
  | nil => exact pure _
  | cons t rest =>
    rw [Compile.list, Token.sitesAt, List.findSome?_append]
    refine (token settings (path ++ [toString index]) (toString index) inPalette t).bind fun _ => ?_
    exact (list settings path inPalette (index + 1) rest).bind_pure

end

end Stops

end Compile

theorem faultOf?_compile (tokens : Group) (settings : Settings) :
    faultOf? (compile tokens settings) = tokens.sites.findSome? (Site.fault? settings) := by
  have stops := Compile.Stops.group settings [] false tokens (Compile.start settings)
  exact (faultOf?_map _ _).trans stops

def Fault.IsSiteFault : Fault → Prop
  | .unknownMedia .. | .shadeBase .. | .unknownUnit _ | .range .. => True
  | _ => False

theorem Scale.entryFault?_kind {entry : String × StepRange} {fault : Fault}
    (failed : entryFault? entry = some fault) : fault.IsSiteFault := by
  rcases entryFault?_cases failed with ⟨cause, rfl⟩ | rfl <;> trivial

theorem Site.fault?_kind {settings : Settings} {site : Site} {fault : Fault}
    (failed : site.fault? settings = some fault) : fault.IsSiteFault := by
  obtain ⟨path, role⟩ := site
  cases role with
  | swatch text =>
    obtain ⟨color, _, failed⟩ := Option.bind_eq_some_iff.mp failed
    split at failed
    next => cases failed
    next =>
      obtain rfl := Option.some.inj failed
      trivial
  | scales config =>
    obtain ⟨entry, _, failed⟩ := List.exists_of_findSome?_eq_some failed
    exact Scale.entryFault?_kind failed
  | responsive tuple =>
    obtain ⟨entry, _, failed⟩ := List.exists_of_findSome?_eq_some failed
    unfold mediaFault? at failed
    split at failed
    next => cases failed
    next =>
      obtain rfl := Option.some.inj failed
      trivial
  | scalar _ | group _ | list _ | blank => cases failed

/--
A compilation succeeds exactly if all its sites are sound. Otherwise its fault is that of the first site
that is not, and it is about a media name, the lightness of a colour, a unit or a range.
-/
theorem compile_fails_at_first_site (tokens : Group) (settings : Settings) :
    ((∃ c, compile tokens settings = .ok c) ↔ ∀ site ∈ tokens.sites, site.Sound settings) ∧
      (∀ fault, compile tokens settings = .error fault ↔
        ∃ before site after, tokens.sites = before ++ site :: after ∧
          (∀ earlier ∈ before, earlier.Sound settings) ∧ site.fault? settings = some fault) ∧
      ∀ fault, compile tokens settings = .error fault → fault.IsSiteFault := by
  refine ⟨?_, ?_, ?_⟩
  · rw [← faultOf?_eq_none_iff, faultOf?_compile, List.findSome?_eq_none_iff]
    simp only [Site.fault?_eq_none_iff]
  · intro fault
    rw [← faultOf?_eq_some_iff, faultOf?_compile, List.findSome?_eq_some_iff]
    simp only [Site.fault?_eq_none_iff]
    constructor
    · rintro ⟨before, site, after, sites, failed, sound⟩
      exact ⟨before, site, after, sites, sound, failed⟩
    · rintro ⟨before, site, after, sites, sound, failed⟩
      exact ⟨before, site, after, sites, failed, sound⟩
  · intro fault failed
    rw [← faultOf?_eq_some_iff, faultOf?_compile] at failed
    obtain ⟨site, _, failed⟩ := List.exists_of_findSome?_eq_some failed
    exact Site.fault?_kind failed

end DesignTokens
