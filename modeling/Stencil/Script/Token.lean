import Stencil.Decimal.Shortest

/-!
# Tokens of JavaScript and TypeScript

What the reader of expressions and scripts sees of the text: words, punctuation marks and literals.
Words keep their spelling after escapes are resolved, and remember whether one was used, because a
keyword may not be written with an escape.  A slash, a closing brace and a closing angle are single
marks here: which longer token they start depends on what stands before them.
-/

namespace Stencil.Script

open Stencil.Decimal (Binary)

/-- One token. -/
inductive Token where
  /-- The end of the text. -/
  | eof
  /-- An identifier or keyword, and whether it was written with an escape. -/
  | word (name : String) (escaped : Bool)
  /-- A private name, without its `#`. -/
  | hash (name : String)
  /-- A punctuation mark. -/
  | mark (text : String)
  | number (value : Binary)
  | bigint
  | string (value : String)
  /-- A piece of template text; `last` if a backquote ends it, `valid` if its escapes are. -/
  | template (last valid : Bool)
  | regex
  /-- Text that is no token. -/
  | broken
  deriving DecidableEq, Repr

/-- Words that are never identifiers. -/
def reservedWords : List String :=
  ["break", "case", "catch", "class", "const", "continue", "debugger", "default", "delete", "do",
   "else", "enum", "export", "extends", "false", "finally", "for", "function", "if", "import",
   "in", "instanceof", "new", "null", "return", "super", "switch", "this", "throw", "true", "try",
   "typeof", "var", "void", "while", "with"]

/-- Words that strict code keeps for later use; they are read as identifiers all the same. -/
def futureWords : List String :=
  ["implements", "interface", "let", "package", "private", "protected", "public", "static"]

/-- Whether the word can never be an identifier. -/
def isReserved (name : String) : Bool := reservedWords.contains name

/-- Marks that assign, the plain one first. -/
def assignMarks : List String :=
  ["=", "+=", "-=", "*=", "/=", "%=", "**=", "<<=", ">>=", ">>>=", "&=", "|=", "^=", "&&=", "||=",
   "??="]

end Stencil.Script
