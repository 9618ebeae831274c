import DesignTokens.Check.Media
import DesignTokens.Proofs.FirstFault
import DesignTokens.Proofs.LeafSequence

set_option autoImplicit false

namespace DesignTokens

open OrderedMap

def Site.mediaUses (site : Site) : List Check.MediaUse :=
  match site.role with
  | .responsive tuple => (keys tuple.media).map (Check.MediaUse.mk site.path)
  | _ => []

def Group.mediaUses (tokens : Group) : List Check.MediaUse := tokens.sites.flatMap Site.mediaUses

namespace Check

theorem mediaUses_ofScalar (path : List String) (inPalette : Bool) (s : Scalar) :
    Site.mediaUses ⟨path, .ofScalar inPalette s⟩ = [] := by
  unfold Role.ofScalar
  cases Role.swatch? inPalette s with
  | some text => rfl
  | none => by_cases blank : s.isBlank <;> simp [blank, Site.mediaUses]

-- The check does not follow palettes; no role that a palette changes uses a media name.
mutual

theorem mediaUses_eq (path : List String) (key : String) (inPalette : Bool) (t : Token) :
    mediaUses path key t = (t.sites path key inPalette).flatMap Site.mediaUses := by
  cases t with
  | scalar s => simp [mediaUses, Token.sites, Role.of, mediaUses_ofScalar]
  | group members =>
    rw [mediaUses, Token.sites, Role.of, List.flatMap_cons]
    cases Role.scales? key members with
    | some config => rfl
    | none => exact mediaUsesIn_eq path (key == paletteKey) members
  | list items =>
    rw [mediaUses, Token.sites, Role.of, List.flatMap_cons]
    cases Role.responsive? items with
    | some tuple => simp [Site.mediaUses]
    | none => exact mediaUsesAt_eq path (key == paletteKey) 0 items

theorem mediaUsesIn_eq (path : List String) (inPalette : Bool) (members : List (String × Token)) :
    mediaUsesIn path members = (Token.sitesIn path inPalette members).flatMap Site.mediaUses := by
  cases members with
  | nil => rfl
  | cons entry rest =>
    obtain ⟨key, t⟩ := entry
    rw [mediaUsesIn, Token.sitesIn, List.flatMap_append,
      mediaUses_eq (path ++ [key]) key inPalette t, mediaUsesIn_eq path inPalette rest]

theorem mediaUsesAt_eq (path : List String) (inPalette : Bool) (index : Nat)
    (items : List Token) :
    mediaUsesAt path index items =
      (Token.sitesAt path inPalette index items).flatMap Site.mediaUses := by
  cases items with
  | nil => rfl
  | cons t rest =>
    rw [mediaUsesAt, Token.sitesAt, List.flatMap_append,
      mediaUses_eq (path ++ [toString index]) (toString index) inPalette t,
      mediaUsesAt_eq path inPalette (index + 1) rest]

end

end Check

def Check.MediaUse.fault (settings : Settings) (use : Check.MediaUse) : Fault :=
  .unknownMedia use.name (authoredName settings use.path)

section FirstKept

variable {α β γ : Type} {f : α → Option β} {g : α → Option γ} {h : γ → β} {p : β → Bool}
  (agree : ∀ a, (f a).filter p = (g a).map h)

end FirstKept

theorem Report.hasErrors_eq (r : List Finding) : hasErrors r = (firstError? r).isSome :=
  List.isSome_find?.symm

end DesignTokens
