import Stencil.Text.Search
import Stencil.Text.Trim

/-!
# Lines of generated code

Code is printed line by line at a current indent.  Statements of the author are kept as they are
written: only their first line is indented, since the others may be inside template text.
-/

namespace Stencil.Render

open Stencil.Text

/-- A line; `none` if nothing was printed on it. -/
structure Line where
  indent : Nat
  text : Option String := none
  deriving DecidableEq, Repr

/-- Printed lines. -/
structure Emitter where
  /-- The lines before the last, the latest first. -/
  done : List Line := []
  last : Line
  indent : Nat
  deriving DecidableEq, Repr

namespace Emitter

/-- No lines yet, at an indent. -/
def start (indent : Nat) : Emitter := { last := { indent }, indent }

/-- Whether nothing was printed on the last line. -/
def isLineEmpty (e : Emitter) : Bool := e.last.text.isNone

/-- Adds text to the last line, even if the text is empty. -/
def write (e : Emitter) (text : String) : Emitter :=
  { e with last := { e.last with text := some (e.last.text.getD "" ++ text) } }

/-- Starts a new line at the current indent. -/
def newline (e : Emitter) : Emitter :=
  { e with done := e.last :: e.done, last := { indent := e.indent } }

/-- Prints text, unless it is empty, and starts a new line if asked to. -/
def print (e : Emitter) (text : String) (newline : Bool) : Emitter :=
  let e := if text.isEmpty then e else e.write text
  if newline then e.newline else e

/-- Prints text and starts a new line. -/
def printLine (e : Emitter) (text : String) : Emitter := e.print text true

/-- Adds a line as it stands, without indent. -/
def keepLine (e : Emitter) (text : String) : Emitter :=
  ({ e with last := { e.last with indent := 0 } }.write text).newline

/-- Prints a statement of the author. -/
def statement (e : Emitter) (text : String) : Emitter :=
  match splitAt '\n' (trimList text.toList) with
  | [] => e
  | first :: others =>
      let first := (first.reverse.dropWhile (· == '\r')).reverse
      others.foldl (fun e line => e.keepLine (String.ofList line))
        (e.printLine (String.ofList first))

/-- Sets the indent of what is printed next. -/
def setIndent (e : Emitter) (indent : Nat) : Emitter :=
  let e := { e with indent }
  if e.isLineEmpty then { e with last := { e.last with indent } } else e

/-- Indents what is printed next by one step more. -/
def deeper (e : Emitter) : Emitter := e.setIndent (e.indent + 1)

/-- Indents what is printed next by one step less. -/
def shallower (e : Emitter) : Emitter := e.setIndent (e.indent - 1)

/-- All lines in order. -/
def lines (e : Emitter) : List Line := (e.last :: e.done).reverse

/-- The text of a line with its indent. -/
def lineText (l : Line) : Option String :=
  l.text.map fun text => String.ofList (List.replicate (2 * l.indent) ' ') ++ text

/-- The printed text; lines on which nothing was printed are left out. -/
def source (e : Emitter) : String := joinWith "\n" (e.lines.filterMap lineText)

end Emitter

/-- One step of printing. -/
inductive Command where
  | line (text : String)
  | statement (text : String)
  | deeper
  | shallower
  deriving DecidableEq, Repr

/-- Carries out one step. -/
def Emitter.step (e : Emitter) : Command → Emitter
  | .line text => e.printLine text
  | .statement text => e.statement text
  | .deeper => e.deeper
  | .shallower => e.shallower

/-- Carries out some steps. -/
def Emitter.run (e : Emitter) (commands : List Command) : Emitter := commands.foldl Emitter.step e

/-- Some steps at one indent more. -/
def indented (commands : List Command) : List Command :=
  .deeper :: commands ++ [.shallower]

end Stencil.Render
