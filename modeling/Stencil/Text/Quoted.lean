import Stencil.Text.Chars
import Stencil.Text.Search

/-!
# Texts inside other texts

How a text is written inside a string literal, inside template text, and inside the value of an
attribute.
-/

namespace Stencil.Text

/-- A control character as four hexadecimal digits after `\u`. -/
def controlEscape (c : Char) : List Char :=
  ['\\', 'u', '0', '0', Nat.digitChar (c.toNat / 16), Nat.digitChar (c.toNat % 16)]

/-- A character inside a string literal. -/
def quotedChar (c : Char) : List Char :=
  match c with
  | '"' => ['\\', '"']
  | '\\' => ['\\', '\\']
  | '\x08' => ['\\', 'b']
  | '\x0c' => ['\\', 'f']
  | '\n' => ['\\', 'n']
  | '\r' => ['\\', 'r']
  | '\t' => ['\\', 't']
  | c => if c.toNat < 0x20 then controlEscape c else [c]

/-- A text as a string literal in double quotes. -/
def quote (text : String) : String :=
  String.ofList ('"' :: text.toList.flatMap quotedChar ++ ['"'])

/-- A text inside template text: backslashes, then backquotes, then the starts of holes are written
behind a backslash. -/
def templateText (text : String) : String :=
  String.ofList <| replaceText ['$', '\x7b'] ['\\', '$', '\x7b'] <|
    replaceChar '\x60' ['\\', '\x60'] <| replaceChar '\\' ['\\', '\\'] text.toList

/-- A character inside the value of an attribute in double quotes. -/
def attributeChar (c : Char) : List Char := if c == '"' then "&quot;".toList else [c]

/-- A text inside the value of an attribute in double quotes. -/
def attributeText (text : String) : String := String.ofList (text.toList.flatMap attributeChar)

/-- A text as a key of an object: as it stands if it is a name, and as a string literal if not. -/
def propertyKey (name : String) : String := if isName name then name else quote name

end Stencil.Text
