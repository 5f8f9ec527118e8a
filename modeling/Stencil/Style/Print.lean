import Stencil.Style.Sheet
import Stencil.Text.Search

/-!
# Printing stylesheets

Blanks outside strings are reduced to single spaces, and dropped beside punctuation; rules without
declarations are dropped.
-/

namespace Stencil.Style

open Stencil.Text

/-- What the minifier remembers of the text before. -/
structure Layout where
  quote : Option Char := none
  /-- Whether blanks stand before the next character. -/
  spaced : Bool := false
  /-- Whether the last character printed absorbs blanks, or none was printed. -/
  absorbs : Bool := true

/-- The text without needless blanks; those beside the given marks are needless. -/
def minifyFrom (marks : List Char) (l : Layout) : List Char → List Char
  | [] => []
  | c :: rest =>
      match l.quote with
      | some q =>
          c :: minifyFrom marks { l with quote := if c == q then none else some q } rest
      | none =>
          if isBlank c then minifyFrom marks { l with spaced := true } rest
          else if marks.contains c then
            c :: minifyFrom marks { l with spaced := false, absorbs := true } rest
          else
            let quote := if c == '"' || c == '\'' then some c else none
            let tail := c :: minifyFrom marks ⟨quote, false, false⟩ rest
            if l.spaced && !l.absorbs then ' ' :: tail else tail

/-- The text without needless blanks. -/
def minifyChars (marks : List Char) (cs : List Char) : List Char := minifyFrom marks {} cs

/-- Declarations without needless blanks, and without semicolons at both ends. -/
def minifyDeclarations (text : String) : String :=
  let cs := minifyChars [':', ';', ','] text.toList
  let cs := (cs.reverse.dropWhile (· == ';')).reverse
  String.ofList (cs.dropWhile (· == ';'))

/-- A selector without needless blanks. -/
def minifySelector (text : String) : String :=
  String.ofList (minifyChars [',', '>', '+', '~'] text.toList)

mutual

/-- The text of a block. -/
def printBlock : Block → String
  | .rule selectors declarations _ =>
      let body := minifyDeclarations declarations
      if body.isEmpty || selectors.isEmpty then ""
      else joinWith "," (selectors.map minifySelector) ++ "\x7b" ++ body ++ "\x7d"
  | .atRule name params declarations children braced =>
      let params := minifyDeclarations params
      let head := "@" ++ name ++ (if params.isEmpty then "" else " " ++ params)
      if !braced then head ++ ";"
      else
        let body := minifyDeclarations declarations
        let inner := printBlocks children
        if body.isEmpty && inner.isEmpty then ""
        else
          head ++ "\x7b" ++ body ++ (if body.isEmpty || inner.isEmpty then "" else ";") ++ inner ++
            "\x7d"

/-- The text of some blocks. -/
def printBlocks : List Block → String
  | [] => ""
  | b :: rest => printBlock b ++ printBlocks rest

end

/-- The text of a stylesheet. -/
def Sheet.print (s : Sheet) : String := printBlocks s.blocks

end Stencil.Style
