import Stencil.Text.Chars

/-!
# Trimming

Removal of whitespace at the two ends of a text.  `trimList` is the list form that the other
definitions and their lemmas go through.
-/

namespace Stencil.Text

/-- The characters without the whitespace at their start. -/
def trimStartList (cs : List Char) : List Char := cs.dropWhile isSpace

/-- The characters without the whitespace at their end. -/
def trimEndList (cs : List Char) : List Char := (cs.reverse.dropWhile isSpace).reverse

/-- The characters without the whitespace at both ends. -/
def trimList (cs : List Char) : List Char := trimEndList (trimStartList cs)

/-- The text without the whitespace at both ends. -/
def trim (text : String) : String := String.ofList (trimList text.toList)

/-- Whether the text is nothing but whitespace. -/
def isSpaces (text : String) : Bool := text.toList.all isSpace

end Stencil.Text
