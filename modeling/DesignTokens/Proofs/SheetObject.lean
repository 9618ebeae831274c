import DesignTokens.Proofs.PropertyNames

set_option autoImplicit false

namespace DesignTokens

open OrderedMap

namespace Json

def entries? : Json → Option (List (String × Json))
  | .object members => some members
  | _ => none

def text? : Json → Option String
  | .string text => some text
  | _ => none

def bool? : Json → Option Bool
  | .bool flag => some flag
  | _ => none

mutual

def Keyed : Json → Prop
  | .array items => KeyedAll items
  | .object members => Distinct members ∧ KeyedIn members
  | _ => True

def KeyedAll : List Json → Prop
  | [] => True
  | item :: rest => item.Keyed ∧ KeyedAll rest

def KeyedIn : List (String × Json) → Prop
  | [] => True
  | member :: rest => member.2.Keyed ∧ KeyedIn rest

end

theorem keyedIn_iff (members : List (String × Json)) :
    KeyedIn members ↔ ∀ member ∈ members, member.2.Keyed := by
  induction members with
  | nil => simp [KeyedIn]
  | cons member rest ih => simp [KeyedIn, ih]

end Json

theorem mapM_map {α β γ : Type} (write : α → β) (read? : β → Option γ) (value : α → γ)
    (items : List α) (each : ∀ a ∈ items, read? (write a) = some (value a)) :
    (items.map write).mapM read? = some (items.map value) := by
  induction items with
  | nil => rfl
  | cons a rest ih =>
    have others := ih fun b member => each b (List.mem_cons_of_mem _ member)
    simp [each a (by simp), others]

namespace Css

def startsWith (start key : String) : Bool := (Text.after? start.toList key.toList).isSome

def blockOf? (value : Json) : Option Block := do
  (← value.entries?).mapM fun member => do return (member.1, ← member.2.text?)

def propertyRuleOf? (key : String) (value : Json) : Option String := do
  let fields ← value.entries?
  let type ← (← get? fields "syntax").text?
  let inherits ← (← get? fields "inherits").bool?
  let initial ← (← get? fields "initialValue").text?
  return key ++ "\x7bsyntax:" ++ type ++ ";inherits:" ++ toString inherits ++ ";initial-value:" ++
    initial ++ ";\x7d"

def mediaRuleOf? (key : String) (value : Json) : Option String := do
  let fields ← value.entries?
  return mediaRule (key, ← blockOf? (← get? fields ":root"))

def ruleOf? (member : String × Json) : Option String :=
  if member.1 = ":root" then (blockOf? member.2).map rootRule
  else if startsWith "@property " member.1 then propertyRuleOf? member.1 member.2
  else if startsWith "@media " member.1 then mediaRuleOf? member.1 member.2
  else none

def textOf? (value : Json) : Option String := do
  return String.join (← (← value.entries?).mapM ruleOf?)

def isPart (member : String × Json) : Bool := startsWith "@media " member.1

def partOf? (member : String × Json) : Option (String × Block) := do
  return (member.1, ← blockOf? member.2)

def sheetOf? (value : Json) : Option Sheet := do
  let members ← value.entries?
  return ⟨← blockOf? (.object (members.filter fun member => !isPart member)),
    ← (members.filter isPart).mapM partOf?⟩

theorem blockOf?_blockObject (block : Block) : blockOf? (blockObject block) = some block := by
  have read := mapM_map (fun d : String × String => (d.1, Json.string d.2))
    (fun member => do return (member.1, ← member.2.text?)) id block fun d _ => rfl
  rwa [List.map_id] at read

theorem startsWith_append (start key : String) : startsWith start (start ++ key) = true := by
  simp [startsWith]

theorem startsWith_media_property (name : String) :
    startsWith "@media " ("@property " ++ name) = false := by
  simp [startsWith, Text.after?]

theorem startsWith_property_media (query : String) :
    startsWith "@property " (Sheet.mediaKey query) = false := by
  simp [startsWith, Sheet.mediaKey, Text.after?]

theorem startsWith_media_name (name : String) : startsWith "@media " ("--" ++ name) = false := by
  simp [startsWith, Text.after?]

theorem property_ne_root (name : String) : "@property " ++ name ≠ ":root" := by
  intro same
  simpa using congrArg String.toList same

theorem mediaKey_ne_root (query : String) : Sheet.mediaKey query ≠ ":root" := by
  intro same
  simpa [Sheet.mediaKey] using congrArg String.toList same

theorem propertyRuleOf?_member (entry : String × Registration) :
    propertyRuleOf? (propertyMember entry).1 (propertyMember entry).2 =
      some (propertyRule entry) := by
  obtain ⟨name, r⟩ := entry
  simp only [propertyRuleOf?, propertyMember, Json.entries?, Json.text?, Json.bool?]
  exact congrArg some (String.toList_inj.mp (by simp [propertyRule_mk]))

theorem ruleOf?_property (entry : String × Registration) :
    ruleOf? (propertyMember entry) = some (propertyRule entry) := by
  rw [← propertyRuleOf?_member]
  simp [ruleOf?, propertyMember, property_ne_root, startsWith_append]

theorem ruleOf?_root (block : Block) :
    ruleOf? (":root", blockObject block) = some (rootRule block) := by
  simp [ruleOf?, blockOf?_blockObject]

theorem ruleOf?_media (query : String) (block : Block) :
    ruleOf? (mediaMember (Sheet.mediaKey query, block)) =
      some (mediaRule (Sheet.mediaKey query, block)) := by
  have key : startsWith "@media " (Sheet.mediaKey query) = true := startsWith_append _ query
  simp [ruleOf?, mediaMember, mediaKey_ne_root, startsWith_property_media, key, mediaRuleOf?,
    Json.entries?, get?, blockOf?_blockObject]

end Css

structure Sheet.Keyed (s : Sheet) : Prop where
  root : Distinct s.root
  names : ∀ d ∈ s.root, ∃ name, d.1 = "--" ++ name
  media : Distinct s.media
  queries : ∀ part ∈ s.media, ∃ query, part.1 = mediaKey query
  parts : ∀ part ∈ s.media, Distinct part.2

namespace Css

theorem startsWith_media_of_mem {s : Sheet} (keyed : s.Keyed) {key : String}
    (listed : key ∈ keys s.media) : startsWith "@media " key = true := by
  obtain ⟨part, own, rfl⟩ := List.mem_map.mp listed
  obtain ⟨query, spelled⟩ := keyed.queries part own
  rw [spelled]
  exact startsWith_append _ query

theorem startsWith_media_of_mem_root {s : Sheet} (keyed : s.Keyed) {key : String}
    (listed : key ∈ keys s.root) : startsWith "@media " key = false := by
  obtain ⟨d, declared, rfl⟩ := List.mem_map.mp listed
  obtain ⟨name, spelled⟩ := keyed.names d declared
  rw [spelled, startsWith_media_name]

theorem ne_of_startsWith {start a b : String} (first : startsWith start a = false)
    (second : startsWith start b = true) : a ≠ b := by
  rintro rfl
  simp [first] at second

theorem textOf?_sheet (registrations : Registrations) (s : Sheet) (keyed : s.Keyed) :
    textOf? (sheet registrations s) = some (text registrations s) := by
  have properties := mapM_map propertyMember ruleOf? propertyRule registrations
    fun entry _ => ruleOf?_property entry
  have media : (s.media.map mediaMember).mapM ruleOf? = some (s.media.map mediaRule) := by
    refine mapM_map mediaMember ruleOf? mediaRule s.media fun part member => ?_
    obtain ⟨query, key⟩ := keyed.queries part member
    obtain ⟨_, block⟩ := part
    obtain rfl := key
    exact ruleOf?_media query block
  simp [textOf?, sheet, Json.entries?, List.mapM_append, properties, ruleOf?_root, media, text,
    String.append_assoc]

theorem filter_append_parts {α : Type} {p : α → Bool} {first second : List α}
    (none : ∀ a ∈ first, p a = false) (all : ∀ b ∈ second, p b = true) :
    (first ++ second).filter p = second ∧ (first ++ second).filter (fun a => !p a) = first := by
  have dropped : first.filter p = [] := by simpa using none
  have kept : first.filter (fun a => !p a) = first := by simpa using none
  have dropped' : second.filter (fun a => !p a) = [] := by simpa using all
  have kept' : second.filter p = second := by simpa using all
  simp only [List.filter_append, dropped, kept, dropped', kept', List.nil_append, List.append_nil,
    and_self]

theorem sheetOf?_flat (s : Sheet) (keyed : s.Keyed) : sheetOf? (flat s) = some s := by
  have named : ∀ member ∈ s.root.map (fun d => (d.1, Json.string d.2)), isPart member = false := by
    intro member listed
    obtain ⟨d, declared, rfl⟩ := List.mem_map.mp listed
    exact startsWith_media_of_mem_root keyed (List.mem_map_of_mem declared)
  have queried : ∀ member ∈ s.media.map (fun part => (part.1, blockObject part.2)),
      isPart member = true := by
    intro member listed
    obtain ⟨part, own, rfl⟩ := List.mem_map.mp listed
    exact startsWith_media_of_mem keyed (List.mem_map_of_mem own)
  obtain ⟨parts, declarations⟩ := filter_append_parts named queried
  have media : (s.media.map fun part => (part.1, blockObject part.2)).mapM partOf? =
      some s.media := by
    have read := mapM_map (fun part : String × Block => (part.1, blockObject part.2)) partOf? id
      s.media fun part _ => by simp [partOf?, blockOf?_blockObject]
    rwa [List.map_id] at read
  have root : blockOf? (.object (s.root.map fun d => (d.1, Json.string d.2))) = some s.root :=
    blockOf?_blockObject s.root
  simp only [sheetOf?, flat, Json.entries?, Option.bind_eq_bind, Option.bind_some, parts,
    declarations, root, media]
  rfl

theorem keyed_blockObject (block : Block) (distinct : Distinct block) :
    (blockObject block).Keyed := by
  refine ⟨by simpa [Distinct, keys, Function.comp_def] using distinct, ?_⟩
  rw [Json.keyedIn_iff]
  intro member listed
  obtain ⟨d, _, rfl⟩ := List.mem_map.mp listed
  trivial

theorem keyed_mediaMember (part : String × Block) (distinct : Distinct part.2) :
    (mediaMember part).2.Keyed :=
  ⟨by simp [Distinct, keys], keyed_blockObject part.2 distinct, trivial⟩

theorem keyed_propertyMember (entry : String × Registration) : (propertyMember entry).2.Keyed :=
  ⟨by simp [Distinct, keys], trivial, trivial, trivial, trivial⟩

theorem keyed_flat (s : Sheet) (keyed : s.Keyed) : (flat s).Keyed := by
  constructor
  · have names : keys (s.root.map fun d => (d.1, Json.string d.2)) = keys s.root := by simp [keys]
    have queries : keys (s.media.map fun part => (part.1, blockObject part.2)) = keys s.media := by
      simp [keys]
    rw [Distinct, keys_append, names, queries, List.nodup_append]
    exact ⟨keyed.root, keyed.media, fun name named query queried => ne_of_startsWith
      (startsWith_media_of_mem_root keyed named) (startsWith_media_of_mem keyed queried)⟩
  · rw [Json.keyedIn_iff]
    intro member listed
    rcases List.mem_append.mp listed with declared | queried
    · obtain ⟨d, _, rfl⟩ := List.mem_map.mp declared
      trivial
    · obtain ⟨part, own, rfl⟩ := List.mem_map.mp queried
      exact keyed_blockObject part.2 (keyed.parts part own)

theorem distinct_members (registrations : Registrations) (s : Sheet)
    (distinct : Distinct registrations) (keyed : s.Keyed) :
    Distinct (registrations.map propertyMember ++ (":root", blockObject s.root) ::
      s.media.map mediaMember) := by
  have properties : keys (registrations.map propertyMember) =
      (keys registrations).map ("@property " ++ ·) := by
    simp [keys, propertyMember, Function.comp_def]
  have queries : keys (s.media.map mediaMember) = keys s.media := by
    simp [keys, mediaMember, Function.comp_def]
  have apart : Function.Injective ("@property " ++ · : String → String) := fun a b same =>
    (String.append_right_inj "@property ").mp same
  have root : ":root" ∉ keys s.media := fun queried =>
    ne_of_startsWith (by decide) (startsWith_media_of_mem keyed queried) rfl
  rw [Distinct, keys_append, keys_cons, properties, queries, List.nodup_append, List.nodup_cons]
  refine ⟨distinct.map apart, ⟨root, keyed.media⟩, ?_⟩
  intro key registered other listed
  obtain ⟨name, _, rfl⟩ := List.mem_map.mp registered
  rcases List.mem_cons.mp listed with rfl | queried
  · exact property_ne_root name
  · exact ne_of_startsWith (startsWith_media_property name) (startsWith_media_of_mem keyed queried)

theorem keyed_sheet (registrations : Registrations) (s : Sheet)
    (distinct : Distinct registrations) (keyed : s.Keyed) : (sheet registrations s).Keyed := by
  refine ⟨distinct_members registrations s distinct keyed, ?_⟩
  rw [Json.keyedIn_iff]
  intro member listed
  rcases List.mem_append.mp listed with registered | others
  · obtain ⟨entry, _, rfl⟩ := List.mem_map.mp registered
    exact keyed_propertyMember entry
  · rcases List.mem_cons.mp others with rfl | queried
    · exact keyed_blockObject s.root keyed.root
    · obtain ⟨part, own, rfl⟩ := List.mem_map.mp queried
      exact keyed_mediaMember part (keyed.parts part own)

end Css

theorem OrderedMap.distinct_lastWrites {α : Type} (writes : List (String × α)) :
    Distinct (lastWrites writes) := by
  rw [← ofList_eq_lastWrites]
  exact distinct_ofList writes

theorem OrderedMap.distinct_lastWritesWithin {α : Type} (writes : List (String × String × α)) :
    Distinct (lastWritesWithin writes) := by
  have parts : keys (lastWritesWithin writes) = (keys writes).eraseDups := by
    simp [lastWritesWithin, keys, Function.comp_def]
  rw [Distinct, parts]
  exact nodup_eraseDups _

theorem OrderedMap.distinct_of_mem_lastWritesWithin {α : Type}
    {writes : List (String × String × α)} {part : String × List (String × α)}
    (member : part ∈ lastWritesWithin writes) : Distinct part.2 := by
  obtain ⟨key, _, rfl⟩ := List.mem_map.mp member
  exact distinct_lastWrites _

namespace Flat

variable {tokens : Group} {settings : Settings} {T : NameTable} {c : Compilation}

theorem exists_name (flat : Flat tokens settings T c) {short : String} (given : short ∈ c.shorts) :
    ∃ name, short = "--" ++ name := by
  rw [Compilation.shorts, flat.nameEntries_eq, T.mem_shorts_iff] at given
  obtain ⟨count, _, rfl⟩ := given
  exact ⟨_, rfl⟩

theorem keyed (flat : Flat tokens settings T c) : c.sheet.Keyed where
  root := by
    rw [flat.root, rootWrites, ← lastWrites_writesOf (fun _ => flat.listed)]
    exact distinct_lastWrites _
  names d declared := flat.exists_name (flat.root_spec d declared).1
  media := by
    rw [flat.media, ← lastWritesWithin_mediaWrites (fun _ => flat.listed)]
    exact distinct_lastWritesWithin _
  queries part listed := by
    rw [flat.media] at listed
    obtain ⟨own, _, rfl⟩ := List.mem_map.mp listed
    exact ⟨own.1, rfl⟩
  parts part listed := by
    rw [flat.media, ← lastWritesWithin_mediaWrites (fun _ => flat.listed)] at listed
    exact distinct_of_mem_lastWritesWithin listed

theorem distinct_registrations (flat : Flat tokens settings T c) : Distinct c.registrations := by
  rw [flat.registrations, registrationWrites, ← lastWrites_writesOf (fun _ => flat.listed)]
  exact distinct_lastWrites _

end Flat

/--
The object of a compilation says what its text says, with or without the registered properties, and the
flat object holds the whole sheet. None of them has a key twice, at the top or further in.
-/
theorem sheet_object_mirrors_text (tokens : Group) (settings : Settings) (c : Compilation)
    (compiled : compile tokens settings = .ok c) :
    (∀ registrations ∈ [c.registrations, []], (Css.sheet registrations c.sheet).Keyed ∧
        Css.textOf? (Css.sheet registrations c.sheet) = some (Css.text registrations c.sheet)) ∧
      (Css.flat c.sheet).Keyed ∧ Css.sheetOf? (Css.flat c.sheet) = some c.sheet := by
  obtain ⟨T, flat⟩ := flat_of_compile compiled
  refine ⟨fun registrations shown => ?_, Css.keyed_flat _ flat.keyed, Css.sheetOf?_flat _ flat.keyed⟩
  have distinct : Distinct registrations := by
    rcases List.mem_pair.mp shown with rfl | rfl
    · exact flat.distinct_registrations
    · exact List.nodup_nil
  exact ⟨Css.keyed_sheet _ _ distinct flat.keyed, Css.textOf?_sheet _ _ flat.keyed⟩

theorem sheet_object_mirrors_text_sample :
    ∃ c, compile .sample .sample = .ok c ∧ (Css.sheet c.registrations c.sheet).Keyed ∧
      Css.textOf? (Css.sheet c.registrations c.sheet) = some (Css.text c.registrations c.sheet) ∧
      Css.textOf? (Css.sheet [] c.sheet) = some (Css.text [] c.sheet) ∧
      (Css.flat c.sheet).Keyed ∧ Css.sheetOf? (Css.flat c.sheet) = some c.sheet := by
  obtain ⟨c, compiled⟩ := compile_sample
  obtain ⟨mirrored, flat⟩ := sheet_object_mirrors_text .sample .sample c compiled
  obtain ⟨keyed, text⟩ := mirrored c.registrations List.mem_cons_self
  exact ⟨c, compiled, keyed, text, (mirrored [] (by simp)).2, flat⟩

end DesignTokens
