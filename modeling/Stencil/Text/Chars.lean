import Stencil.Text.Alphanumeric

/-!
# Character classes of template text

Three notions of blank are kept apart.  `isBlank` is the whitespace of markup, for which the
non-breaking space is content; `isSpace` is the whitespace of every script, which trimming
removes.  The remaining classes say what may stand in a tag name and in a plain name.
-/

namespace Stencil.Text

/-- Whitespace of markup: space, tab, line feed, carriage return, vertical tab, form feed. -/
def isBlank (c : Char) : Bool :=
  c == ' ' || c == '\t' || c == '\n' || c == '\r' || c == '\x0b' || c == '\x0c'

/-- Whitespace of every script, the property White_Space. -/
def isSpace (c : Char) : Bool :=
  let n := c.toNat
  (9 ≤ n && n ≤ 13) || n == 0x20 || n == 0x85 || n == 0xa0 || n == 0x1680 ||
    (0x2000 ≤ n && n ≤ 0x200a) || n == 0x2028 || n == 0x2029 || n == 0x202f || n == 0x205f ||
    n == 0x3000

/-- One of the ten decimal digits. -/
def isDigit (c : Char) : Bool := '0' ≤ c && c ≤ '9'

/-- One of the 52 unaccented Latin letters. -/
def isLetter (c : Char) : Bool := ('a' ≤ c && c ≤ 'z') || ('A' ≤ c && c ≤ 'Z')

/-- A character that turns `<` or `</` before it into a tag. -/
def isTagStart (c : Char) : Bool := isLetter c || c == '_'

/-- A character that continues a tag name. -/
def isTagPart (c : Char) : Bool :=
  isAlphanumeric c || c == '-' || c == '_' || c == ':' || c == '.'

/-- A character that starts a plain name. -/
def isNameStart (c : Char) : Bool := isLetter c || c == '_' || c == '$'

/-- A character that continues a plain name. -/
def isNamePart (c : Char) : Bool := isNameStart c || isDigit c

/-- Whether the characters form a plain name. -/
def isNameList : List Char → Bool
  | [] => false
  | c :: rest => isNameStart c && rest.all isNamePart

/-- Whether the text is a plain name: an unaccented identifier. -/
def isName (text : String) : Bool := isNameList text.toList

/-- The letter in lower case when it is an unaccented Latin capital. -/
def lowerChar (c : Char) : Char := if 'A' ≤ c ∧ c ≤ 'Z' then Char.ofNat (c.toNat + 32) else c

/-- The text with its unaccented Latin capitals in lower case. -/
def lower (text : String) : String := String.ofList (text.toList.map lowerChar)

/-- Every blank of markup is a space of some script. -/
theorem isSpace_of_isBlank {c : Char} (h : isBlank c = true) : isSpace c = true := by
  simp only [isBlank, Bool.or_eq_true, beq_iff_eq] at h
  rcases h with ((((h | h) | h) | h) | h) | h <;> subst h <;> decide

end Stencil.Text
