import Stencil.Text.Chars

/-!
# Letters

Letter case only concerns the 52 unaccented letters, and these may all stand in a tag name.
-/

namespace Stencil.Text

private theorem char_le_iff (c d : Char) : c ≤ d ↔ c.toNat ≤ d.toNat := by
  rw [Char.le_def, UInt32.le_iff_toNat_le]
  rfl

theorem isLetter_iff (c : Char) :
    isLetter c = true ↔ 97 ≤ c.toNat ∧ c.toNat ≤ 122 ∨ 65 ≤ c.toNat ∧ c.toNat ≤ 90 := by
  simp only [isLetter, Bool.or_eq_true, Bool.and_eq_true, decide_eq_true_eq, char_le_iff]
  rfl

theorem toNat_lowerChar (c : Char) :
    (lowerChar c).toNat = if 65 ≤ c.toNat ∧ c.toNat ≤ 90 then c.toNat + 32 else c.toNat := by
  have hcond : ('A' ≤ c ∧ c ≤ 'Z') ↔ (65 ≤ c.toNat ∧ c.toNat ≤ 90) := by
    simp only [char_le_iff]
    rfl
  unfold lowerChar
  split
  · next h =>
      have hn := hcond.mp h
      have hv : (c.toNat + 32).isValidChar := .inl (by omega)
      rw [if_pos hn, Char.ofNat, dif_pos hv]
      rfl
  · next h => rw [if_neg (fun h' => h (hcond.mpr h'))]

/-- What is no small letter is in lower case only if it was before. -/
theorem eq_of_lowerChar_eq {c d : Char} (h : lowerChar c = d) (hd : isLetter d = false) : c = d := by
  have hn := toNat_lowerChar c
  rw [h] at hn
  split at hn
  · next hc =>
      have : isLetter d = true := (isLetter_iff d).mpr (.inl (by omega))
      simp [this] at hd
  · exact Char.toNat_inj.mp hn.symm

theorem isLetter_lowerChar (c : Char) : isLetter (lowerChar c) = isLetter c := by
  rw [Bool.eq_iff_iff, isLetter_iff, isLetter_iff, toNat_lowerChar]
  split <;> omega

theorem isTagPart_of_isLetter {c : Char} (h : isLetter c = true) : isTagPart c = true := by
  have ha : isAlphanumeric c = true := by
    have hn := (isLetter_iff c).mp h
    unfold isAlphanumeric alphanumericFlips
    rw [Flips.holds_cons, if_neg (by omega), Flips.holds_cons, if_neg (by omega),
      Flips.holds_cons, if_neg (by omega), Flips.holds_cons]
    rcases hn with hn | hn
    · rw [if_neg (by omega), Flips.holds_cons, if_neg (by omega), Flips.holds_cons, if_pos (by omega)]
      rfl
    · rw [if_pos (by omega)]
      rfl
  simp [isTagPart, ha]

/-- What starts a tag name also continues one. -/
theorem isTagPart_of_isTagStart {c : Char} (h : isTagStart c = true) : isTagPart c = true := by
  simp only [isTagStart, Bool.or_eq_true, beq_iff_eq] at h
  rcases h with h | rfl
  · exact isTagPart_of_isLetter h
  · decide

/-- A blank ends a tag name. -/
theorem isTagPart_of_isBlank {c : Char} (h : isBlank c = true) : isTagPart c = false := by
  simp only [isBlank, Bool.or_eq_true, beq_iff_eq] at h
  rcases h with ((((h | h) | h) | h) | h) | h <;> subst h <;> decide

end Stencil.Text
