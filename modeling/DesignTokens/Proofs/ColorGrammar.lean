import DesignTokens.Color.Oklch
import DesignTokens.Proofs.NumeralTypes
import DesignTokens.Proofs.Words

set_option autoImplicit false

namespace DesignTokens

namespace Decimal

open ValueType

theorem plain_cases {text : List Char} (plain : Plain text) :
    (AreDigits text ∧ text ≠ []) ∨ ∃ whole places, text = whole ++ '.' :: places ∧
      AreDigits (whole ++ places) ∧ whole ++ places ≠ [] := by
  obtain ⟨⟨c, member, digit⟩, chars, points⟩ := plain
  by_cases pointed : '.' ∈ text
  · right
    obtain ⟨whole, places, rfl⟩ := List.append_of_mem pointed
    have apart : '.' ∉ whole ++ places := by
      rw [List.count_append, List.count_cons_self] at points
      rw [← List.count_eq_zero, List.count_append]
      omega
    refine ⟨whole, places, rfl, fun d inside => ?_, fun nothing => ?_⟩
    · have both : d ∈ whole ++ '.' :: places := by
        rw [List.mem_append] at inside
        rw [List.mem_append, List.mem_cons]
        exact inside.imp_right .inr
      rcases chars d both with digit | rfl
      · exact digit
      · exact absurd inside apart
    · obtain ⟨rfl, rfl⟩ := List.append_eq_nil_iff.mp nothing
      obtain rfl : c = '.' := by simpa using member
      revert digit
      decide
  · left
    refine ⟨fun d inside => ?_, List.ne_nil_of_mem member⟩
    rcases chars d inside with digit | rfl
    · exact digit
    · exact absurd inside pointed

theorem exists_unsigned?_iff (text : List Char) : (∃ x, unsigned? text = some x) ↔ Plain text := by
  constructor
  · rintro ⟨x, read⟩
    obtain ⟨m, mantissa, rest, _⟩ := (unsigned?_eq_some_iff text x).mp read
    obtain ⟨digits, written, whole | point⟩ := text_of_mantissa? mantissa
    · rw [whole, rest, List.append_nil]
      exact plain_of_digits digits written
    · rw [point, rest, List.append_nil]
      exact plain_of_point digits written
  · intro plain
    rcases plain_cases plain with ⟨digits, written⟩ | ⟨whole, places, rfl, digits, written⟩
    · exact ⟨_, (unsigned?_eq_some_iff _ _).mpr ⟨_, mantissa?_whole text digits written, rfl, rfl⟩⟩
    · exact ⟨_, (unsigned?_eq_some_iff _ _).mpr ⟨_, mantissa?_point whole places digits written, rfl, rfl⟩⟩

theorem solid_of_plain {text : List Char} (plain : Plain text) : Text.Solid text := by
  obtain ⟨x, read⟩ := (exists_unsigned?_iff text).mpr plain
  exact solid_of_unsigned? read

end Decimal

namespace Oklch

open Text ValueType

def IsLightness (field : List Char) : Prop := Plain field ∨ ∃ number, Plain number ∧ field = number ++ ['%']

def AreFields (inside l c h : List Char) : Prop :=
  ∃ before first second after, Blanks before ∧ Blanks first ∧ first ≠ [] ∧ Blanks second ∧ second ≠ [] ∧
    Blanks after ∧ inside = before ++ (l ++ (first ++ (c ++ (second ++ (h ++ after)))))

def IsColorText (text : List Char) : Prop :=
  ∃ inside l c h, text = "oklch(".toList ++ (inside ++ [')']) ∧ AreFields inside l c h ∧
    IsLightness l ∧ Plain c ∧ Plain h

theorem not_percent_of_plain {number : List Char} (plain : Plain number) : before? ['%'] number = none := by
  rw [Option.eq_none_iff_forall_ne_some]
  intro rest cut
  rw [(before?_eq_some_iff _ _ _).mp cut] at plain
  have percent := plain.chars '%' (by simp)
  revert percent
  decide

theorem exists_lightness?_iff (field : List Char) : (∃ x, lightness? field = some x) ↔ IsLightness field := by
  constructor
  · rintro ⟨x, read⟩
    unfold lightness? at read
    split at read
    next number cut =>
      exact .inr ⟨number, (Decimal.exists_unsigned?_iff number).mp ⟨x, read⟩, (before?_eq_some_iff _ _ _).mp cut⟩
    next =>
      obtain ⟨raw, number, _⟩ := Option.map_eq_some_iff.mp read
      exact .inl ((Decimal.exists_unsigned?_iff field).mp ⟨raw, number⟩)
  · rintro (plain | ⟨number, plain, rfl⟩)
    · obtain ⟨raw, read⟩ := (Decimal.exists_unsigned?_iff field).mpr plain
      exact ⟨_, by rw [lightness?, not_percent_of_plain plain, read, Option.map_some]⟩
    · obtain ⟨x, read⟩ := (Decimal.exists_unsigned?_iff number).mpr plain
      refine ⟨x, ?_⟩
      rw [lightness?, before?_append]
      exact read

theorem solid_of_isLightness {field : List Char} (lightness : IsLightness field) : Solid field := by
  rcases lightness with plain | ⟨number, plain, rfl⟩
  · exact Decimal.solid_of_plain plain
  · obtain ⟨_, digits⟩ := Decimal.solid_of_plain plain
    refine ⟨by simp, fun c member => ?_⟩
    rcases List.mem_append.mp member with digit | percent
    · exact digits c digit
    · obtain rfl := List.mem_singleton.mp percent
      decide

theorem gap_of_stops {gap word rest : List Char} (solid : Solid word)
    (stops : Stops (gap ++ (word ++ rest))) : gap ≠ [] := by
  rintro rfl
  obtain ⟨written, letters⟩ := solid
  obtain ⟨c, word, rfl⟩ := List.exists_cons_of_ne_nil written
  have blank := stops c rfl
  rw [letters c List.mem_cons_self] at blank
  cases blank

theorem stops_append {gap : List Char} (blank : Blanks gap) (written : gap ≠ []) (rest : List Char) :
    Stops (gap ++ rest) := by
  obtain ⟨c, gap, rfl⟩ := List.exists_cons_of_ne_nil written
  intro d first
  obtain rfl : c = d := by simpa using first
  exact ((blanks_cons_iff c gap).mp blank).1

theorem words_eq_fields_iff (inside l c h : List Char) :
    words inside = [l, c, h] ↔ AreFields inside l c h ∧ Solid l ∧ Solid c ∧ Solid h := by
  constructor
  · intro cut
    obtain ⟨before, restL, blankBefore, solidL, stopsL, rfl, cutL⟩ := exists_of_words_cons cut
    obtain ⟨first, restC, blankFirst, solidC, stopsC, rfl, cutC⟩ := exists_of_words_cons cutL
    obtain ⟨second, after, blankSecond, solidH, _, rfl, cutH⟩ := exists_of_words_cons cutC
    have blankAfter := (words_eq_nil_iff after).mp cutH
    exact ⟨⟨before, first, second, after, blankBefore, blankFirst, gap_of_stops solidC stopsL,
      blankSecond, gap_of_stops solidH stopsC, blankAfter, rfl⟩, solidL, solidC, solidH⟩
  · rintro ⟨⟨before, first, second, after, blankBefore, blankFirst, someFirst, blankSecond, someSecond,
      blankAfter, rfl⟩, solidL, solidC, solidH⟩
    have stopsAfter : Stops after := fun c head => blankAfter c (List.mem_of_mem_head? head)
    rw [words_blanks_append blankBefore, words_solid_append solidL (stops_append blankFirst someFirst _),
      words_blanks_append blankFirst, words_solid_append solidC (stops_append blankSecond someSecond _),
      words_blanks_append blankSecond, words_solid_append solidH stopsAfter, (words_eq_nil_iff after).mpr blankAfter]

theorem read?_eq_some_iff (text : String) (color : Oklch) :
    read? text = some color ↔ ∃ inside l c h, trim text.toList = "oklch(".toList ++ (inside ++ [')']) ∧
      AreFields inside l c h ∧ lightness? l = some color.lightness ∧
      Decimal.unsigned? c = some color.chroma ∧ Decimal.unsigned? h = some color.hue := by
  simp only [read?, Option.bind_eq_bind, Option.bind_eq_some_iff, after?_eq_some_iff, before?_eq_some_iff]
  constructor
  · rintro ⟨_, start, inside, rfl, fields⟩
    split at fields
    next l c h cut =>
      simp only [Option.bind_eq_some_iff, Option.some.injEq] at fields
      obtain ⟨_, lightness, _, chroma, _, hue, rfl⟩ := fields
      exact ⟨inside, l, c, h, start, ((words_eq_fields_iff _ _ _ _).mp cut).1, lightness, chroma, hue⟩
    next => cases fields
  · rintro ⟨inside, l, c, h, start, fields, lightness, chroma, hue⟩
    have cut : words inside = [l, c, h] := (words_eq_fields_iff _ _ _ _).mpr
      ⟨fields, solid_of_isLightness ((exists_lightness?_iff l).mp ⟨_, lightness⟩),
        Decimal.solid_of_unsigned? chroma, Decimal.solid_of_unsigned? hue⟩
    exact ⟨_, start, inside, rfl, by simp [cut, lightness, chroma, hue]⟩

theorem exists_read?_iff (text : String) :
    (∃ color, read? text = some color) ↔ IsColorText (trim text.toList) := by
  simp only [read?_eq_some_iff]
  constructor
  · rintro ⟨color, inside, l, c, h, start, fields, lightness, chroma, hue⟩
    exact ⟨inside, l, c, h, start, fields, (exists_lightness?_iff l).mp ⟨_, lightness⟩,
      (Decimal.exists_unsigned?_iff c).mp ⟨_, chroma⟩, (Decimal.exists_unsigned?_iff h).mp ⟨_, hue⟩⟩
  · rintro ⟨inside, l, c, h, start, fields, isLightness, plainC, plainH⟩
    obtain ⟨lightness, readL⟩ := (exists_lightness?_iff l).mpr isLightness
    obtain ⟨chroma, readC⟩ := (Decimal.exists_unsigned?_iff c).mpr plainC
    obtain ⟨hue, readH⟩ := (Decimal.exists_unsigned?_iff h).mpr plainH
    exact ⟨⟨lightness, chroma, hue⟩, inside, l, c, h, start, fields, readL, readC, readH⟩

/-- The texts of the grammar are read, and any other text is an error that has it as it was. -/
theorem read_accepts_iff (text : String) :
    ((∃ color, read text = .ok color) ↔ IsColorText (trim text.toList)) ∧
      (read text = .error (.notColor text) ↔ ¬ IsColorText (trim text.toList)) := by
  rw [← exists_read?_iff, read]
  cases read? text with
  | none => simp
  | some color => simp

end Oklch

end DesignTokens
