import DesignTokens.Proofs.FirstFault
import DesignTokens.Proofs.RegisteredValues

set_option autoImplicit false

namespace DesignTokens

open OrderedMap

def Sheet.Declares (s : Sheet) (name : String) : Prop :=
  name ∈ keys s.root ∨ ∃ part ∈ s.media, name ∈ keys part.2

def Content.IsBlank : Content → Prop
  | .plain _ => False
  | .responsive tuple => tuple.default = none ∧ ∀ entry ∈ tuple.media, mediaText? entry.2 = none

namespace Compile

theorem media_declared_of_responsive {settings : Settings} {path : List String}
    {tuple : Responsive} {d d' : Draft} {reference : Reference}
    (run : exec (responsive settings path tuple) d = (.ok reference, d')) :
    ∀ entry ∈ tuple.media, entry.1 ∈ keys settings.media := by
  have faultless := Stops.responsive settings path tuple d
  rw [run] at faultless
  intro entry member
  have passed := List.findSome?_eq_none_iff.mp faultless.symm entry member
  by_contra undeclared
  simp [mediaFault?, undeclared] at passed

theorem exists_performed {settings : Settings} {e : Event} (events : List Event) {d d' : Draft}
    (run : exec (performAll settings events) d = (.ok (), d')) (member : e ∈ events) :
    ∃ before after, exec (perform settings e) before = (.ok (), after) := by
  induction events generalizing d with
  | nil => cases member
  | cons first rest ih =>
    obtain ⟨_, next, now, later⟩ := exec_bind_ok run
    rcases List.mem_cons.mp member with rfl | member
    · exact ⟨d, next, now⟩
    · exact ih later member

theorem exists_compiled {tokens : Group} {settings : Settings} {c : Compilation}
    (compiled : compile tokens settings = .ok c) {l : Leaf} (member : l ∈ tokens.leaves) :
    ∃ before after reference,
      exec (content settings l.path l.content) before = (.ok reference, after) := by
  obtain ⟨references, d, run, _⟩ := finishes_of_compile compiled
  obtain ⟨e, listed, own⟩ := List.mem_filterMap.mp member
  have performed : exec (performAll settings tokens.events) (start settings) = (.ok (), d) := by
    rw [Group.events, ← walk_events, exec_map, run]
    rfl
  obtain ⟨before, after, now⟩ := exists_performed _ performed listed
  cases e with
  | blank path => cases own
  | fault fault => cases own
  | leaf other =>
    obtain rfl : other = l := Option.some.inj own
    obtain ⟨reference, first⟩ := content_of_perform now
    exact ⟨before, after, reference, first⟩

end Compile

theorem isBlank_iff_of_compile {tokens : Group} {settings : Settings} {c : Compilation}
    (compiled : compile tokens settings = .ok c) {l : Leaf} (member : l ∈ tokens.leaves) :
    l.content.IsBlank ↔ l.content.value? = none ∧ l.content.mediaValues settings = [] := by
  obtain ⟨before, after, reference, run⟩ := Compile.exists_compiled compiled member
  cases own : l.content with
  | plain value => simp [Content.IsBlank, Content.value?]
  | responsive tuple =>
    rw [own] at run
    -- Each media name has a query, so a value is skipped only for its text.
    have declared := Compile.media_declared_of_responsive run
    have blank (entry : String × Token) (member : entry ∈ tuple.media) :
        mediaValue? settings entry = none ↔ mediaText? entry.2 = none := by
      obtain ⟨query, known⟩ := (mem_keys_iff _ _).mp (declared entry member)
      cases text : mediaText? entry.2 <;> simp [mediaValue?, known, text]
    simp only [Content.IsBlank, Content.value?, Content.mediaValues, Option.map_eq_none_iff,
      List.filterMap_eq_nil_iff]
    exact and_congr_right fun _ => forall₂_congr fun entry member => (blank entry member).symm

namespace Flat

variable {tokens : Group} {settings : Settings} {T : NameTable} {c : Compilation}

theorem mem_root_iff (flat : Flat tokens settings T c) {l : Leaf} (member : l ∈ tokens.leaves) :
    T.nameOf (l.authored settings) ∈ keys c.sheet.root ↔
      ∃ other ∈ tokens.leaves, other.authored settings = l.authored settings ∧
        other.content.value? ≠ none := by
  rw [mem_keys_iff, flat.get?_root member, ← Option.ne_none_iff_exists', Ne, lastNamed?_eq_none_iff]
  push Not
  rfl

theorem mem_media_iff (flat : Flat tokens settings T c) {l : Leaf} (member : l ∈ tokens.leaves) :
    (∃ part ∈ c.sheet.media, T.nameOf (l.authored settings) ∈ keys part.2) ↔
      ∃ other ∈ tokens.leaves, other.authored settings = l.authored settings ∧
        other.content.mediaValues settings ≠ [] := by
  rw [flat.media]
  constructor
  · rintro ⟨part, placed, named⟩
    obtain ⟨own, kept, rfl⟩ := List.mem_map.mp placed
    obtain ⟨d, declared, same⟩ := List.mem_map.mp named
    obtain ⟨w, inside, rfl⟩ := List.mem_map.mp declared
    obtain ⟨other, listed, authored, value⟩ :=
      mem_of_mem_mediaWrites (mem_of_mem_lastWritesWithin kept inside)
    have equal := T.nameOf_apart (authored ▸ flat.listed listed) (flat.listed member) same
    exact ⟨other, listed, authored.trans equal, List.ne_nil_of_mem value⟩
  · rintro ⟨other, listed, authored, written⟩
    obtain ⟨v, value⟩ := List.exists_mem_of_ne_nil _ written
    have wrote : (v.1, l.authored settings, v.2) ∈ mediaWrites settings tokens.leaves :=
      List.mem_flatMap.mpr ⟨other, listed, List.mem_map.mpr ⟨v, value, by rw [authored]⟩⟩
    obtain ⟨part, kept, inside⟩ := (exists_part_iff _ _).mpr ⟨_, wrote, rfl⟩
    obtain ⟨w, declared, same⟩ := List.mem_map.mp inside
    exact ⟨_, List.mem_map_of_mem kept,
      List.mem_map.mpr ⟨_, List.mem_map_of_mem declared, congrArg T.nameOf same⟩⟩

theorem declares_iff (flat : Flat tokens settings T c) (compiled : compile tokens settings = .ok c)
    {l : Leaf} (member : l ∈ tokens.leaves) :
    c.sheet.Declares (T.nameOf (l.authored settings)) ↔
      ∃ other ∈ tokens.leaves, other.authored settings = l.authored settings ∧
        ¬ other.content.IsBlank := by
  rw [Sheet.Declares, flat.mem_root_iff member, flat.mem_media_iff member]
  constructor
  · rintro (⟨other, listed, same, value⟩ | ⟨other, listed, same, value⟩)
    · exact ⟨other, listed, same, fun blank =>
        value ((isBlank_iff_of_compile compiled listed).mp blank).1⟩
    · exact ⟨other, listed, same, fun blank =>
        value ((isBlank_iff_of_compile compiled listed).mp blank).2⟩
  · rintro ⟨other, listed, same, solid⟩
    rw [isBlank_iff_of_compile compiled listed, not_and_or] at solid
    exact solid.imp (fun value => ⟨other, listed, same, value⟩)
      fun value => ⟨other, listed, same, value⟩

end Flat

/--
A reference stands for a property that is declared, at the root or under a query, exactly if one of the
leaves of that property is not blank. A blank tuple alone leaves its reference without a declaration.
-/
theorem reference_declared_iff (tokens : Group) (settings : Settings) (c : Compilation)
    (compiled : compile tokens settings = .ok c) (path : List String) (expression : String)
    (listed : (path, expression) ∈ Reference.leavesOf [] c.references) :
    ∃ name fallback, c.short? (authoredName settings path) = some name ∧
      expression = (VarCall.mk name fallback).write ∧
      (c.sheet.Declares name ↔
        ∃ l ∈ tokens.leaves, l.authored settings = authoredName settings path ∧
          ¬ l.content.IsBlank) := by
  obtain ⟨T, flat, mirrors⟩ := flat_mirrors_of_compile compiled
  obtain ⟨l, member, rfl, name, given, written⟩ := exists_leaf_of_reference mirrors listed
  obtain rfl : name = T.nameOf (l.authored settings) :=
    Option.some.inj (given.symm.trans (flat.short?_leaf member))
  exact ⟨_, _, given, written, flat.declares_iff compiled member⟩

def Group.unfilled : Group := [("a", .list [.group [("wide", .scalar (.text ""))]])]

theorem reference_declared_iff_unfilled :
    ∃ c name fallback, compile .unfilled .sample = .ok c ∧
      (["a"], "var(--d0)") ∈ Reference.leavesOf [] c.references ∧
      c.short? "--a" = some name ∧ "var(--d0)" = (VarCall.mk name fallback).write ∧
      ¬ c.sheet.Declares name := by
  obtain ⟨c, compiled⟩ := exists_of_isOk .unfilled .sample (by decide +kernel)
  have listed : (["a"], "var(--d0)") ∈ Reference.leavesOf [] c.references :=
    listed_of_compile compiled (by decide +kernel)
  obtain ⟨name, fallback, given, written, declared⟩ :=
    reference_declared_iff _ _ c compiled _ _ listed
  refine ⟨c, name, fallback, compiled, listed, given, written, fun declares => ?_⟩
  obtain ⟨l, member, _, solid⟩ := declared.mp declares
  have leaves : Group.unfilled.leaves =
      [⟨["a"], .responsive ⟨[("wide", .scalar (.text ""))], none⟩⟩] := by rfl
  rw [leaves, List.mem_singleton] at member
  subst member
  exact solid ⟨rfl, by simp [mediaText?, Scalar.isBlank]⟩

end DesignTokens
