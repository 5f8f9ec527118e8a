import Stencil.Script.Grammar.Modules
import Stencil.Script.Parser

/-!
# Whole texts

`program?` reads a text as a module: a list of statements with the bytes each of them takes.
`expression?` reads one expression from the start of a text and leaves what follows it unread.
Both refuse a text in which the grammar met a fault.
-/

namespace Stencil.Script

open Stencil.Text Reader

/-- The rule for each goal, in terms of rules for the goals inside it. -/
def rules (self : Grammar) : Grammar
  | .assignment resultType => Grammar.assignment self resultType
  | .binary precedence => Grammar.binary self precedence
  | .unary => Grammar.unary self
  | .primary => Grammar.primary self
  | .statement nesting => Grammar.statement self nesting
  | .pattern => Grammar.pattern self
  | .type => Grammar.type self
  | .typeOperand => Grammar.typeOperand self

/-- The grammar for texts of at most the given number of bytes.  Between two goals at one place
there are fewer than sixteen others, so this depth is never reached. -/
def grammar (size : Nat) : Grammar := Grammar.tie rules (16 * (size + 4))

/-- Whether the cursor stands behind a text without faults. -/
def Cursor.accepts (c : Cursor) : Bool := c.sound && c.pending.isEmpty && c.token != .broken

/-- The statements of a module. -/
def items (self : Grammar) : Reader (List Item) :=
  loop (fun (acc : List Item) => do
    let c ← cursor
    if c.token == .eof then return .inr acc.reverse
    let node ← self (.statement .list)
    let stop := (← cursor).last
    return .inl (⟨node, c.start, stop⟩ :: acc)) []

/-- Whether the statement is a string alone, which at the start of a module is a directive. -/
def Item.isDirective (i : Item) : Bool :=
  match i.node with
  | .perform (.literal (.string _)) => true
  | _ => false

/-- Names under which a statement exports something. -/
def Item.exported (i : Item) : List String :=
  match i.node with
  | .exporting names _ => names
  | .exportingDefault _ => ["default"]
  | .exportingAll name => name.toList
  | _ => []

/-- Whether a name stands twice in a list. -/
def repeats : List String → Bool
  | [] => false
  | name :: rest => rest.contains name || repeats rest

/-- The cursor on the first token of a module, after a first line that starts with `#!`. -/
def Cursor.firstOfModule : List Char → Cursor
  | '#' :: '!' :: rest =>
      let line := rest.takeWhile (!isLineEnd ·)
      Cursor.next { Cursor.first [] with
        stop := 2 + byteSize line, rest := rest.dropWhile (!isLineEnd ·) }
  | text => Cursor.first text

/-- The statements of a module, directives apart.  The plain dialect exports no name twice. -/
def program? (typescript : Bool) (text : String) : Option (List Item) :=
  let cs := text.toList
  let size := byteSize cs
  match items (grammar size) { typescript, size } (Cursor.firstOfModule cs) with
  | some (found, c) =>
      if c.accepts && (typescript || !(repeats (found.flatMap Item.exported))) then
        some (found.dropWhile Item.isDirective)
      else none
  | none => none

/-- The expression at the start of a text. -/
def expression? (typescript : Bool) (text : String) : Option Node :=
  let cs := text.toList
  let size := byteSize cs
  match Grammar.expression (grammar size) { typescript, size } (Cursor.first cs) with
  | some (e, c) => if c.accepts then some e else none
  | none => none

end Stencil.Script
