import Stencil.Script.Literal
import Stencil.Text.Quoted

/-!
# Characters behind a backslash

A character of a string literal is written as it is, as a letter behind a backslash, or by its number
(`quotedChar_cases`).  The letters are in one table.
-/

namespace Stencil.Text

/-- The characters that are written as another one behind a backslash, each behind that. -/
def letterEscapes : List (Char × Char) :=
  [('"', '"'), ('\\', '\\'), ('b', '\x08'), ('f', '\x0c'), ('n', '\n'), ('r', '\r'), ('t', '\t')]

/-- How a character is written in a string literal: after a backslash, by its number or as it is. -/
theorem quotedChar_cases (c : Char) :
    (∃ d, quotedChar c = ['\\', d] ∧ (d, c) ∈ letterEscapes) ∨
    quotedChar c = controlEscape c ∧ c.toNat < 0x20 ∨
    quotedChar c = [c] ∧ c ≠ '"' ∧ c ≠ '\\' ∧ ¬ c.toNat < 0x20 := by
  unfold quotedChar
  split
  · exact .inl ⟨'"', rfl, by decide⟩
  · exact .inl ⟨'\\', rfl, by decide⟩
  · exact .inl ⟨'b', rfl, by decide⟩
  · exact .inl ⟨'f', rfl, by decide⟩
  · exact .inl ⟨'n', rfl, by decide⟩
  · exact .inl ⟨'r', rfl, by decide⟩
  · exact .inl ⟨'t', rfl, by decide⟩
  · next hquote hslash _ _ _ _ _ =>
      right
      split
      · next hsmall => exact .inl ⟨rfl, hsmall⟩
      · next hlarge => exact .inr ⟨rfl, hquote, hslash, hlarge⟩

end Stencil.Text

namespace Stencil.Script

open Stencil.Text

/-- A character is no half of another one. -/
theorem isHalf_toNat (c : Char) : isHalf c.toNat = false := by
  have hvalid : c.toNat < 0xd800 ∨ 0xdfff < c.toNat ∧ c.toNat < 0x110000 := c.valid
  simp only [isHalf, isHighHalf, isLowHalf, Bool.or_eq_false_iff, Bool.and_eq_false_iff,
    decide_eq_false_iff_not]
  omega

/-- The codes of some characters give these characters. -/
theorem textOfCodes_map_toNat (cs : List Char) : textOfCodes (cs.map Char.toNat) = cs := by
  unfold textOfCodes
  rw [if_neg (by simp [isHalf_toNat]), List.map_map]
  exact (List.map_congr_left fun c _ => Char.ofNat_toNat c).trans (List.map_id cs)

end Stencil.Script
