import DesignTokens.Css.ValueType
import DesignTokens.Proofs.LetterCase
import DesignTokens.Proofs.SingleCalls

set_option autoImplicit false

namespace DesignTokens

namespace Text

theorem getLast?_lower_iff (text : List Char) :
    (lower text).getLast? = some ')' ↔ text.getLast? = some ')' := by
  have close (c : Char) : c.toLower = ')' ↔ c = ')' := toLower_eq_iff (.inl (by decide)) c
  simp only [lower, List.getLast?_map, Option.map_eq_some_iff, close]
  constructor
  · rintro ⟨c, last, rfl⟩
    exact last
  · intro last
    exact ⟨')', last, rfl⟩

end Text

namespace ValueType

open Text

theorem letters_of_namedColors : ∀ name ∈ namedColors, name.toList.all Char.isLower = true := by
  decide +kernel

theorem open_of_colorFunctions : ∀ function ∈ colorFunctions, function.toList.getLast? = some '(' := by
  decide

theorem head_of_colorFunctions : ∀ function ∈ colorFunctions,
    function.toList ≠ [] ∧ function.toList.head? ≠ some '#' := by
  decide

theorem of_eq_color_iff (value : String) : of value = .color ↔ isColor (trim value.toList) = true := by
  rw [of, ofTrimmed]
  cases isColor (trim value.toList) with
  | true => simp
  | false =>
    simp only [Bool.false_eq_true, if_false, iff_false]
    repeat' split
    all_goals simp

section

variable {function : String} {value : List Char}

theorem isColor_of_function (listed : function ∈ colorFunctions)
    (opens : function.toList <+: lower value) :
    isColor value = true ↔ value.getLast? = some ')' := by
  have unnamed : String.ofList (lower value) ∉ namedColors := by
    intro named
    have opening : '(' ∈ function.toList := List.mem_of_getLast? (open_of_colorFunctions _ listed)
    have letters := List.all_eq_true.mp (letters_of_namedColors _ named)
    exact absurd (letters '(' (by simpa using opens.subset opening)) (by decide)
  have called : (colorFunctions.any fun f => f.toList.isPrefixOf (lower value)) = true :=
    List.any_eq_true.mpr ⟨function, listed, List.isPrefixOf_iff_prefix.mpr opens⟩
  obtain ⟨written, head⟩ := head_of_colorFunctions _ listed
  rw [← getLast?_lower_iff, isColor]
  generalize lower value = lowered at *
  split
  next hex =>
    rcases List.prefix_cons_iff.mp opens with nothing | ⟨rest, hash, _⟩
    · exact absurd nothing written
    · simp [hash] at head
  next => simp [called, unnamed]

theorem exists_inside (listed : function ∈ colorFunctions) (opens : function.toList <+: lower value)
    (closes : value.getLast? = some ')') :
    ∃ inside, value.drop function.length = inside ++ [')'] := by
  rcases List.eq_nil_or_concat (value.drop function.length) with nothing | ⟨inside, last, split⟩
  · have same : function.toList = lower value := by
      apply opens.eq_of_length_le
      rw [lower, List.length_map, String.length_toList]
      exact List.drop_eq_nil_iff.mp nothing
    have opening := open_of_colorFunctions _ listed
    rw [same, (getLast?_lower_iff value).mpr closes] at opening
    cases opening
  · rw [List.concat_eq_append] at split
    rw [← List.take_append_drop function.length value, split, ← List.append_assoc,
      List.getLast?_concat] at closes
    exact ⟨inside, by rw [split, Option.some.inj closes]⟩

end

def afterOpen (function value : String) : List Char := (trim value.toList).drop function.length

/-- The parenthesis that closes the function at the start ends the text. -/
def IsOneCall (function value : String) : Prop :=
  afterClose? (.plain 0) (afterOpen function value) = some []

theorem isOneCall_iff {function value : String} {inside : List Char}
    (split : afterOpen function value = inside ++ [')']) :
    IsOneCall function value ↔ Balanced inside := by
  rw [IsOneCall, afterClose?_plain_iff, split]
  constructor
  · rintro ⟨_, balanced, same⟩
    rwa [List.append_cancel_right same]
  · intro balanced
    exact ⟨inside, balanced, rfl⟩

/--
A value that begins with a colour function has the type of a colour exactly if it ends in a parenthesis, and is
then registered as one; it is one call exactly if what stands between the two is balanced.
-/
theorem isOneCall_of_color_iff (value function : String) (listed : function ∈ colorFunctions)
    (opens : function.toList <+: lower (trim value.toList)) :
    (of value = .color ↔ (trim value.toList).getLast? = some ')') ∧
      (of value = .color →
        (IsOneCall function value ↔ Balanced (afterOpen function value).dropLast) ∧
          (isSelfContained value = true →
            Registration.ofValue? value = some ⟨.color, false, value⟩)) := by
  have colored : of value = .color ↔ (trim value.toList).getLast? = some ')' :=
    (of_eq_color_iff value).trans (isColor_of_function listed opens)
  refine ⟨colored, fun color => ⟨?_, fun contained => ?_⟩⟩
  · obtain ⟨inside, split⟩ := exists_inside listed opens (colored.mp color)
    have between : (afterOpen function value).dropLast = inside := by
      rw [afterOpen, split, List.dropLast_concat]
    rw [between]
    exact isOneCall_iff split
  · rw [Registration.ofValue?, if_pos contained, color]

theorem isOneCall_of_color_iff_sequence :
    let value := "rgb(0 0 0) rgb(255 255 255)"
    of value = .color ∧ ¬ IsOneCall "rgb(" value ∧
      Registration.ofValue? value = some ⟨.color, false, value⟩ := by
  intro value
  obtain ⟨colored, calls⟩ := isOneCall_of_color_iff value "rgb(" (by decide) (by decide)
  have color : of value = .color := colored.mpr (by decide)
  obtain ⟨one, registered⟩ := calls color
  refine ⟨color, ?_, registered (by decide)⟩
  rw [one]
  decide

end ValueType

end DesignTokens
