import DesignTokens.Proofs.LastWrites
import DesignTokens.Proofs.Leaves

set_option autoImplicit false

namespace DesignTokens

theorem Digits.toText_ne_empty (d : Digits) : d.toText ≠ "" := by
  unfold Digits.toText
  by_cases fraction : d.exponent < 0
  · simp [fraction]
  · simp [fraction]

theorem append_ne_empty (start : String) {text : String} (solid : text ≠ "") :
    start ++ text ≠ "" := by
  simp [solid]

theorem Binary64.toText_ne_empty (n : Binary64) : n.toText ≠ "" := by
  cases n with
  | finite s u _ => exact append_ne_empty _ (Digits.of u).toText_ne_empty
  | infinite s => cases s <;> decide
  | nan => decide

theorem Scalar.toText_ne_empty (s : Scalar) (solid : s.isBlank = false) : s.toText ≠ "" := by
  cases s with
  | text value => simpa [Scalar.isBlank, Scalar.toText] using solid
  | number n => exact n.toText_ne_empty

theorem bind_eq_ok {α β : Type} {x : Except Fault α} {f : α → Except Fault β} {b : β}
    (answered : (x >>= f) = .ok b) : ∃ a, x = .ok a ∧ f a = .ok b := by
  cases x with
  | error fault => cases answered
  | ok a => exact ⟨a, rfl, answered⟩

namespace ShadeScale

theorem of_eq_ok {text : String} {shades : List (String × String)}
    (shaded : of text = .ok shades) :
    ∃ base, Oklch.read text = .ok base ∧ shades = names.zip (around text base) := by
  obtain ⟨base, readable, shaded⟩ := bind_eq_ok shaded
  refine ⟨base, readable, ?_⟩
  split at shaded
  · exact (Except.ok.inj shaded).symm
  · cases shaded

theorem around_eq (text : String) (base : Oklch) :
    ∃ a b c d e f : Oklch, around text base =
      [a.write, b.write, c.write, text, d.write, e.write, f.write] := by
  unfold around
  rcases upper base.lightness with ⟨lightest, lighter, light⟩
  rcases lower base.lightness with ⟨dark, darker, darkest⟩
  exact ⟨_, _, _, _, _, _, rfl⟩

theorem mem_around {text : String} {base : Oklch} {shade : String}
    (member : shade ∈ around text base) : shade = text ∨ ∃ color : Oklch, shade = color.write := by
  obtain ⟨a, b, c, d, e, f, shades⟩ := around_eq text base
  simp only [shades, List.mem_cons, List.not_mem_nil, or_false] at member
  rcases member with written | written | written | kept | written | written | written
  · exact .inr ⟨a, written⟩
  · exact .inr ⟨b, written⟩
  · exact .inr ⟨c, written⟩
  · exact .inl kept
  · exact .inr ⟨d, written⟩
  · exact .inr ⟨e, written⟩
  · exact .inr ⟨f, written⟩

theorem mem_ne_empty {text : String} {shades : List (String × String)}
    (shaded : of text = .ok shades) {shade : String × String} (member : shade ∈ shades) :
    shade.2 ≠ "" := by
  obtain ⟨base, readable, scale⟩ := of_eq_ok shaded
  rw [scale] at member
  have listed : shade.2 ∈ around text base := (List.of_mem_zip member).2
  rcases mem_around listed with kept | ⟨color, written⟩
  · rw [kept]
    rintro rfl
    cases readable
  · rw [written]
    simp [Oklch.write]

end ShadeScale

namespace Scale

theorem mem_of {range : StepRange} {suffix : String} {scale : Scale}
    (spaced : of range suffix = .ok scale) {size : String × String} (member : size ∈ scale) :
    ∃ value : Binary64, size = entry suffix value := by
  obtain ⟨values, _, spaced⟩ := bind_eq_ok spaced
  obtain rfl := Except.ok.inj spaced
  obtain ⟨value, _, same⟩ := List.mem_map.mp (OrderedMap.mem_of_mem_ofList _ size member)
  exact ⟨value, same.symm⟩

theorem mem_each {config : List (String × StepRange)} {all : List (String × Scale)}
    (expanded : each config = .ok all) {part : String × Scale} (member : part ∈ all) :
    ∃ range suffix, of range suffix = .ok part.2 := by
  induction config generalizing all with
  | nil =>
    obtain rfl := Except.ok.inj expanded
    cases member
  | cons entry rest ih =>
    obtain ⟨key, range⟩ := entry
    obtain ⟨unit, _, expanded⟩ := bind_eq_ok expanded
    obtain ⟨scale, spaced, expanded⟩ := bind_eq_ok expanded
    obtain ⟨others, later, expanded⟩ := bind_eq_ok expanded
    obtain rfl := Except.ok.inj expanded
    rcases List.mem_cons.mp member with rfl | member
    · exact ⟨range, unit.suffix, spaced⟩
    · exact ih later member

theorem mem_ofUnits {config : List (String × StepRange)} {all : List (String × Scale)}
    (expanded : ofUnits config = .ok all) {part : String × Scale} (member : part ∈ all) :
    ∃ range suffix, of range suffix = .ok part.2 := by
  obtain ⟨parts, each, expanded⟩ := bind_eq_ok expanded
  obtain rfl := Except.ok.inj expanded
  exact mem_each each (OrderedMap.mem_of_mem_ofList _ part member)

end Scale

inductive Content.Origin : Content → Prop where
  | scalar (s : Scalar) : s.isBlank = false → Origin (.plain s.toText)
  | shade {text : String} {shades : List (String × String)} {shade : String × String} :
      ShadeScale.of text = .ok shades → shade ∈ shades → Origin (.plain shade.2)
  | size {range : StepRange} {suffix : String} {scale : Scale} {size : String × String} :
      Scale.of range suffix = .ok scale → size ∈ scale → Origin (.plain size.2)
  | responsive {items : List Token} {tuple : Responsive} :
      Role.responsive? items = some tuple → Origin (.responsive tuple)

namespace Outline

def Every (p : Content → Prop) : Outline → Prop
  | .nil => True
  | .leaf _ content rest => p content ∧ rest.Every p
  | .blank _ rest => rest.Every p
  | .faulty _ _ rest => rest.Every p
  | .group _ members rest => members.Every p ∧ rest.Every p

theorem every_leaves {p : Content → Prop} {o : Outline} (every : o.Every p) (path : List String) :
    ∀ l ∈ (o.events path).filterMap Event.leaf?, p l.content := by
  induction o generalizing path with
  | nil => simp [events]
  | leaf key content rest ih =>
    change ∀ l ∈ ⟨path ++ [key], content⟩ :: (rest.events path).filterMap Event.leaf?, p l.content
    rw [List.forall_mem_cons]
    exact ⟨every.1, ih every.2 path⟩
  | blank key rest ih => exact ih every path
  | faulty key fault rest ih => exact ih every path
  | group key members rest ihm ihr =>
    intro l member
    rw [events, List.filterMap_append, List.mem_append] at member
    rcases member with inside | after
    · exact ihm every.1 _ l inside
    · exact ihr every.2 path l after

theorem every_generated {p : Content → Prop} (entries : List (String × String))
    (each : ∀ e ∈ entries, p (.plain e.2)) : (generated entries).Every p := by
  induction entries with
  | nil => trivial
  | cons e rest ih =>
    exact ⟨each e (by simp), ih fun e member => each e (List.mem_cons_of_mem _ member)⟩

theorem every_ofScales {p : Content → Prop} (scales : List (String × Scale))
    (each : ∀ part ∈ scales, ∀ size ∈ part.2, p (.plain size.2)) : (ofScales scales).Every p := by
  induction scales with
  | nil => trivial
  | cons part rest ih =>
    refine ⟨every_generated part.2 (each part (by simp)), ih ?_⟩
    exact fun part member => each part (List.mem_cons_of_mem _ member)

theorem origin_ofScalar (key : String) (inPalette : Bool) {rest : Outline}
    (others : rest.Every Content.Origin) (s : Scalar) :
    (ofScalar key inPalette rest s).Every Content.Origin := by
  unfold ofScalar
  cases Role.swatch? inPalette s with
  | some text =>
    cases shaded : ShadeScale.of text with
    | ok shades =>
      simp only [shaded]
      exact ⟨every_generated shades fun shade member => .shade shaded member, others⟩
    | error fault => simpa only [shaded, Every] using others
  | none =>
    by_cases blank : s.isBlank
    · simpa [blank, Every] using others
    · simpa [blank, Every, others] using Content.Origin.scalar s (by simpa using blank)

mutual

theorem origin_ofToken (key : String) (inPalette : Bool) {rest : Outline}
    (others : rest.Every Content.Origin) (t : Token) :
    (ofToken key inPalette rest t).Every Content.Origin := by
  cases t with
  | scalar s =>
    rw [ofToken]
    exact origin_ofScalar key inPalette others s
  | group members =>
    rw [ofToken]
    cases Role.scales? key members with
    | some config =>
      cases expanded : Scale.ofUnits config with
      | ok scales =>
        simp only [expanded]
        refine ⟨every_ofScales scales fun part listed size member => ?_, others⟩
        obtain ⟨range, suffix, spaced⟩ := Scale.mem_ofUnits expanded listed
        exact .size spaced member
      | error fault => simpa only [expanded, Every] using others
    | none => exact ⟨origin_ofGroup (key == paletteKey) members, others⟩
  | list items =>
    rw [ofToken]
    cases classified : Role.responsive? items with
    | some tuple => exact ⟨.responsive classified, others⟩
    | none => exact ⟨origin_ofList (key == paletteKey) 0 items, others⟩

theorem origin_ofGroup (inPalette : Bool) (members : List (String × Token)) :
    (ofGroup inPalette members).Every Content.Origin := by
  cases members with
  | nil =>
    rw [ofGroup]
    trivial
  | cons entry rest =>
    obtain ⟨key, t⟩ := entry
    rw [ofGroup]
    exact origin_ofToken key inPalette (origin_ofGroup inPalette rest) t

theorem origin_ofList (inPalette : Bool) (index : Nat) (items : List Token) :
    (ofList inPalette index items).Every Content.Origin := by
  cases items with
  | nil =>
    rw [ofList]
    trivial
  | cons t rest =>
    rw [ofList]
    exact origin_ofToken (toString index) inPalette (origin_ofList inPalette (index + 1) rest) t

end

end Outline

theorem origin_of_mem_leaves {tokens : Group} {l : Leaf} (member : l ∈ tokens.leaves) :
    l.content.Origin :=
  Outline.every_leaves (Outline.origin_ofGroup false tokens) [] l member

theorem Role.default_solid {items : List Token} {tuple : Responsive}
    (classified : Role.responsive? items = some tuple) {s : Scalar}
    (given : tuple.default = some s) : s.isBlank = false := by
  unfold Role.responsive? at classified
  split at classified
  next media =>
    split at classified
    · obtain rfl := Option.some.inj classified
      cases given
    · cases classified
  next media default =>
    split at classified
    · obtain rfl := Option.some.inj classified
      by_cases blank : default.isBlank
      · simp [blank] at given
      · obtain rfl : default = s := by simpa [blank] using given
        simpa using blank
    · cases classified
  next => cases classified

namespace Content

theorem value?_ne_empty {c : Content} (origin : c.Origin) {value : String}
    (given : c.value? = some value) : value ≠ "" := by
  cases origin with
  | scalar s solid =>
    obtain rfl : s.toText = value := by simpa [value?] using given
    exact s.toText_ne_empty solid
  | @shade text shades shade shaded member =>
    obtain rfl : shade.2 = value := by simpa [value?] using given
    exact ShadeScale.mem_ne_empty shaded member
  | @size range suffix scale size spaced member =>
    obtain rfl : size.2 = value := by simpa [value?] using given
    obtain ⟨number, rfl⟩ := Scale.mem_of spaced member
    simp [Scale.entry, number.toText_ne_empty]
  | @responsive items tuple classified =>
    obtain ⟨s, default, rfl⟩ := Option.map_eq_some_iff.mp given
    exact s.toText_ne_empty (Role.default_solid classified default)

theorem mediaText?_ne_empty {t : Token} {value : String} (text : mediaText? t = some value) :
    value ≠ "" := by
  unfold mediaText? at text
  split at text
  next s =>
    by_cases blank : s.isBlank
    · simp [blank] at text
    · obtain rfl : s.toText = value := by simpa [blank] using text
      exact s.toText_ne_empty (by simpa using blank)
  next => cases text

theorem mediaValue_ne_empty {settings : Settings} {c : Content} {query value : String}
    (written : (query, value) ∈ c.mediaValues settings) : value ≠ "" := by
  cases c with
  | plain value => cases written
  | responsive tuple =>
    obtain ⟨entry, _, text⟩ := List.mem_filterMap.mp written
    obtain ⟨_, _, text⟩ := Option.bind_eq_some_iff.mp text
    obtain ⟨_, solid, same⟩ := Option.bind_eq_some_iff.mp text
    obtain ⟨rfl, rfl⟩ := Prod.mk.inj (Option.some.inj same)
    exact mediaText?_ne_empty solid

end Content

end DesignTokens
