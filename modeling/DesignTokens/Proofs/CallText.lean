import DesignTokens.Css.VarCall
import DesignTokens.Proofs.LetterCase
import DesignTokens.Proofs.Words

set_option autoImplicit false

namespace DesignTokens

namespace Text

theorem differs_of_absent (separator : Char) (text : List Char) (absent : separator ∉ text) :
    ∀ c ∈ text, (c != separator) = true := by
  intro c member
  simpa using fun same : c = separator => absent (same ▸ member)

theorem splitFirst?_append (separator : Char) (text rest : List Char) (absent : separator ∉ text) :
    splitFirst? separator (text ++ separator :: rest) = some (text, rest) := by
  have other := differs_of_absent separator text absent
  unfold splitFirst?
  rw [List.dropWhile_append_of_pos other, List.takeWhile_append_of_pos other]
  simp

theorem splitFirst?_absent (separator : Char) (text : List Char) (absent : separator ∉ text) :
    splitFirst? separator text = none := by
  have nothing : text.dropWhile (· != separator) = [] :=
    List.dropWhile_eq_nil_iff.mpr (differs_of_absent separator text absent)
  simp [splitFirst?, nothing]

theorem toNat_of_isNameChar (c : Char) (inName : isNameChar c = true) :
    45 ≤ c.toNat ∧ c.toNat ≤ 122 := by
  rw [isNameChar, Bool.or_eq_true, Bool.or_eq_true, beq_iff_eq, beq_iff_eq] at inName
  rcases inName with (alphanumeric | rfl) | rfl
  · change (c.isAlpha || c.isDigit) = true at alphanumeric
    rcases Bool.or_eq_true_iff.mp alphanumeric with letter | digit
    · have range := (isAlpha_iff c).mp letter
      omega
    · have range : 48 ≤ c.toNat ∧ c.toNat ≤ 57 := Char.isDigit_iff_toNat.mp digit
      omega
  · decide
  · decide

theorem isBlank_of_isNameChar (c : Char) (inName : isNameChar c = true) : isBlank c = false := by
  have range := toNat_of_isNameChar c inName
  exact isBlank_of_toNat (by omega) (by omega)

end Text

namespace VarCall

/-- Names that a reading gives back: custom properties with no comma and no blanks around them. -/
structure WellNamed (name : String) : Prop where
  dashes : "--".toList.isPrefixOf name.toList = true
  noComma : ',' ∉ name.toList
  trimmed : Text.trim name.toList = name.toList

theorem wellNamed_of_nameChars (rest : String)
    (inName : ∀ c ∈ rest.toList, Text.isNameChar c = true) : WellNamed ("--" ++ rest) := by
  have chars : ∀ c ∈ ("--" ++ rest).toList, Text.isNameChar c = true := by
    intro c member
    rw [String.toList_append, List.mem_append] at member
    rcases member with dash | member
    · obtain rfl : c = '-' := by simpa using dash
      decide
    · exact inName c member
  have solid := fun c member => Text.isBlank_of_isNameChar c (chars c member)
  refine ⟨by simp, fun comma => absurd (chars _ comma) (by decide), ?_⟩
  refine Text.trim_eq_self _ (fun c first => ?_) (fun c last => ?_)
  · exact solid c (List.mem_of_mem_head? first)
  · exact solid c (List.mem_of_getLast? last)

def normalized (call : VarCall) : VarCall :=
  ⟨call.name, call.fallback.map fun text =>
    String.ofList (Text.trim (Commas.spaced text.toList))⟩

def inner (call : VarCall) : List Char :=
  match call.fallback with
  | some text => call.name.toList ++ ',' :: ' ' :: Commas.spaced text.toList
  | none => call.name.toList

theorem toList_write (call : VarCall) :
    call.write.toList = "var(".toList ++ (call.inner ++ [')']) := by
  unfold write inner
  cases call.fallback <;> simp

theorem body_inner (call : VarCall) (named : WellNamed call.name) :
    body call.inner = call.normalized := by
  obtain ⟨name, fallback⟩ := call
  unfold body inner normalized
  cases fallback with
  | none =>
    simp only [Text.splitFirst?_absent ',' _ named.noComma, named.trimmed]
    simp
  | some text =>
    simp only [Text.splitFirst?_append ',' _ _ named.noComma, named.trimmed,
      Text.trim_blank_cons ' ' _ (by decide)]
    simp

theorem read?_write (call : VarCall) (named : WellNamed call.name) :
    read? call.write = some call.normalized := by
  have solid : Text.trim call.write.toList = call.write.toList := by
    rw [toList_write]
    refine Text.trim_eq_self _ (fun c first => ?_) (fun c last => ?_)
    · obtain rfl : 'v' = c := by simpa using first
      decide
    · rw [← List.append_assoc, List.getLast?_concat] at last
      obtain rfl : ')' = c := by simpa using last
      decide
  unfold read?
  rw [solid, toList_write, Text.after?_append]
  simp only [Option.bind_eq_bind, Option.bind_some, Text.before?_append, body_inner call named]
  exact if_pos named.dashes

theorem name_of_read?_write {name : String} (fallback : Option String) (named : WellNamed name) :
    (read? (VarCall.mk name fallback).write).map VarCall.name = some name := by
  rw [read?_write _ named]
  rfl

end VarCall

end DesignTokens
