import DesignTokens.Text.Basic

set_option autoImplicit false

namespace DesignTokens.Text

theorem toLower_cases (c : Char) :
    (65 ≤ c.toNat ∧ c.toNat ≤ 90 ∧ c.toLower.toNat = c.toNat + 32) ∨ c.toLower = c := by
  unfold Char.toLower
  split
  next upper =>
    left
    simp only [ge_iff_le, UInt32.le_iff_toNat_le] at upper
    have range : 65 ≤ c.toNat ∧ c.toNat ≤ 90 := upper
    refine ⟨range.1, range.2, ?_⟩
    change (c.toNat + 32) % 4294967296 = c.toNat + 32
    omega
  next => exact .inr rfl

theorem toLower_eq_iff {d : Char} (unlettered : d.toNat < 65 ∨ 122 < d.toNat) (c : Char) :
    c.toLower = d ↔ c = d := by
  rcases toLower_cases c with ⟨least, most, code⟩ | same
  · constructor
    · rintro rfl
      omega
    · rintro rfl
      omega
  · rw [same]

theorem isLower_iff (c : Char) : c.isLower = true ↔ 97 ≤ c.toNat ∧ c.toNat ≤ 122 := by
  change (decide (c.val ≥ 97) && decide (c.val ≤ 122)) = true ↔ _
  simp only [Bool.and_eq_true, decide_eq_true_eq, ge_iff_le, UInt32.le_iff_toNat_le]
  rfl

theorem isUpper_iff (c : Char) : c.isUpper = true ↔ 65 ≤ c.toNat ∧ c.toNat ≤ 90 := by
  change decide (c.val ≥ 65 ∧ c.val ≤ 90) = true ↔ _
  simp only [decide_eq_true_eq, ge_iff_le, UInt32.le_iff_toNat_le]
  rfl

theorem isAlpha_iff (c : Char) : c.isAlpha = true ↔
    (65 ≤ c.toNat ∧ c.toNat ≤ 90) ∨ (97 ≤ c.toNat ∧ c.toNat ≤ 122) := by
  change (c.isUpper || c.isLower) = true ↔ _
  rw [Bool.or_eq_true, isUpper_iff, isLower_iff]

theorem isBlank_toLower (c : Char) : isBlank c.toLower = isBlank c := by
  rcases toLower_cases c with ⟨least, most, code⟩ | same
  · rw [Bool.eq_iff_iff]
    simp only [isBlank, Bool.or_eq_true, Bool.and_eq_true, decide_eq_true_eq, beq_iff_eq]
    omega
  · rw [same]

theorem isHexDigit_iff (c : Char) : isHexDigit c = true ↔
    (48 ≤ c.toNat ∧ c.toNat ≤ 57) ∨ (97 ≤ c.toNat ∧ c.toNat ≤ 102) ∨ (65 ≤ c.toNat ∧ c.toNat ≤ 70) := by
  simp only [isHexDigit, Bool.or_eq_true, Bool.and_eq_true, decide_eq_true_eq, Char.le_def,
    UInt32.le_iff_toNat_le, or_assoc, Char.isDigit_iff_toNat]
  rfl

theorem isHexDigit_toLower (c : Char) : isHexDigit c.toLower = isHexDigit c := by
  rcases toLower_cases c with ⟨least, most, code⟩ | same
  · rw [Bool.eq_iff_iff, isHexDigit_iff, isHexDigit_iff]
    omega
  · rw [same]

theorem lower_reverse (text : List Char) : lower text.reverse = (lower text).reverse := List.map_reverse

theorem lower_trimLeft (text : List Char) : lower (trimLeft text) = trimLeft (lower text) := by
  have same : isBlank ∘ Char.toLower = isBlank := funext isBlank_toLower
  rw [lower, lower, trimLeft, trimLeft, List.dropWhile_map, same]

theorem lower_trim (text : List Char) : lower (trim text) = trim (lower text) :=
  calc lower (trim text)
    _ = (lower (trimLeft (trimLeft text).reverse)).reverse := lower_reverse _
    _ = (trimLeft (lower (trimLeft text)).reverse).reverse := by rw [lower_trimLeft, lower_reverse]
    _ = trim (lower text) := by rw [lower_trimLeft]; rfl

end DesignTokens.Text
