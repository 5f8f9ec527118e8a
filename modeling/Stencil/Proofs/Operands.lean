import Stencil.Json
import Stencil.Proofs.Readers
import Stencil.Render.Client

/-!
# Operands of an expression

The code of an expression is pasted into other code as it was written.  What it is there is for the
grammar to say, and the grammar belongs to the parser, which is handed in.  So a `Phrasing` is handed in
beside it: it divides an expression into its operands, the assignment expressions between the commas
outside all brackets, and tells where its comments and line ends matter.

`Phrasing.Describes` lists the productions that tie a phrasing to a parser.  The first of them starts
from the text that `Expression.parse` makes: an expression in parentheses on lines of its own is a list
of operands, which is what the text is without the parentheses (`Phrasing.Describes.operands`).
`Phrasing.Composes` adds the productions of the calls, functions and parentheses that are written around
the code of an expression.
-/

namespace Stencil.Script

open Stencil.Text Stencil.Render

/-- Whether an expression is several expressions with commas between them. -/
def Node.isSequence : Node → Bool
  | .sequence _ => true
  | _ => false

/-- An operand: its code and its tree. -/
structure Operand where
  code : String
  node : Node

/-- The tree of some operands with commas between them: a sequence, unless there is only one. -/
def Operand.together : List Operand → Node
  | [o] => o.node
  | os => .sequence (os.map Operand.node)

/-- What the grammar tells of a text in a dialect, typed or not. -/
structure Phrasing where
  /-- The operands of a text that is an expression, where `await` is an operator or where it is not.
  There are none if the text is no expression. -/
  operands? (typed awaits : Bool) (text : String) : Option (List Operand)
  /-- Whether there is a comment in the text. -/
  commented (typed : Bool) (text : String) : Bool
  /-- Whether the text ends in a comment that goes on to the end of the line. -/
  runsOn (typed : Bool) (text : String) : Bool
  /-- Whether a line ends in front of the first token. -/
  breaks (typed : Bool) (text : String) : Bool

/-- The productions that tie a phrasing to a parser. -/
structure Phrasing.Describes (g : Phrasing) (p : Parser) (typed : Bool) : Prop where
  /-- What stands in parentheses on lines of its own is an expression. -/
  enclosed {text : String} {n : Node} {start stop : Nat}
    (h : p.program? typed ("(\n" ++ text ++ "\n);") = some [⟨.perform (.paren n), start, stop⟩]) :
    ∃ os, g.operands? typed true text = some os ∧ n = Operand.together os
  /-- A text that is an expression is the expression at its start. -/
  whole {text : String} {os : List Operand} (h : g.operands? typed true text = some os) :
    p.expression? typed text = some (Operand.together os)
  /-- There is an operand, and none is a sequence. -/
  single {text : String} {os : List Operand} (h : g.operands? typed true text = some os) :
    os ≠ [] ∧ ∀ o ∈ os, o.node.isSequence = false
  /-- What is an expression where `await` is no operator is the same one where it is. -/
  awaits {text : String} {os : List Operand} (h : g.operands? typed false text = some os) :
    g.operands? typed true text = some os
  /-- A string of JSON is a string literal. -/
  string {text value : String} (hquoted : text.toList.head? = some '"')
    (h : Json.parse? text = some (.string (some value))) (awaits : Bool) :
    (∃ code, g.operands? typed awaits text = some [⟨code, .literal (.string value)⟩]) ∧
      g.runsOn typed text = false ∧ g.breaks typed text = false

/-- The statement as which an expression was read is the expression with this tree in parentheses, and
not only a statement that starts and ends with one. -/
def Expression.HasTree (p : Parser) (typed : Bool) (e : Expression) (n : Node) : Prop :=
  ∃ start stop, p.program? typed ("(\n" ++ e.code ++ "\n);") =
    some [⟨.perform (.paren n), start, stop⟩]

theorem Operand.isSequence_together {os : List Operand} (hne : os ≠ [])
    (h : ∀ o ∈ os, o.node.isSequence = false) :
    (together os).isSequence = false ↔ ∃ o, os = [o] := by
  match os, hne with
  | [o], _ => simpa [together] using h o
  | o :: o' :: rest, _ => simp [together, Node.isSequence]

namespace Phrasing.Describes

variable {g : Phrasing} {p : Parser} {typed : Bool} {e : Expression} {n : Node}

/-- **The text of an expression** is divided into operands, and its tree is theirs. -/
theorem operands (h : g.Describes p typed) (he : e.HasTree p typed n) :
    ∃ os, g.operands? typed true e.code = some os ∧ n = Operand.together os ∧
      (n.isSequence = false ↔ ∃ o, os = [o]) := by
  obtain ⟨start, stop, hprogram⟩ := he
  obtain ⟨os, hos, rfl⟩ := h.enclosed hprogram
  obtain ⟨hne, hsingle⟩ := h.single hos
  exact ⟨os, hos, rfl, Operand.isSequence_together hne hsingle⟩

/-- Where `await` is no operator the operands are the same, if there are any. -/
theorem operands_eq (h : g.Describes p typed) {os : List Operand} {text : String}
    (hos : g.operands? typed true text = some os) (hplain : (g.operands? typed false text).isSome) :
    g.operands? typed false text = some os := by
  obtain ⟨os', hos'⟩ := Option.isSome_iff_exists.mp hplain
  rw [hos', ← h.awaits hos', hos]

end Phrasing.Describes

/-- What the code of the node at a spot is read as. -/
def IsTarget (reference : Option Nat) (node : Node) : Prop :=
  match reference with
  | none => node = .ident "$node"
  | some _ => ∃ value, node = .index (.ident "$refs") (.literal (.number value))

/-- The text is a call of a function of the runtime as a statement. -/
def IsCallOf (p : Parser) (typed : Bool) (text member : String) (args : List Node) : Prop :=
  ∃ start stop, p.program? typed text =
    some [⟨.perform (.call (.member (.ident "$") member) [] args), start, stop⟩]

/-- Whether a text starts with a token that is no brace: a space, a byte order mark or a comment could
stand in front of a brace. -/
def startsBare (text : String) : Bool :=
  text.toList.head?.any fun c => !isSpace c && c != '\uFEFF' && c != '\x7b'

/-- The productions that are relied on where code without comments is passed to the runtime. -/
structure Phrasing.Composes (g : Phrasing) (p : Parser) (typed : Bool) : Prop
    extends g.Describes p typed where
  /-- The node at a spot is an operand in front of a comma. -/
  behindTarget {text : String} {os : List Operand} (reference : Option Nat)
    (h : g.operands? typed true text = some os) (hplain : g.commented typed text = false) :
    (∃ o, IsTarget reference o.node ∧
      g.operands? typed true (Client.target reference ++ ", " ++ text) = some (o :: os)) ∧
    g.commented typed (Client.target reference ++ ", " ++ text) = false
  /-- The body of an arrow function is the operand behind the arrow, unless that starts a block. -/
  behindArrow {text : String} {o : Operand} {os : List Operand}
    (h : g.operands? typed false text = some (o :: os)) (hplain : g.commented typed text = false)
    (hbare : startsBare text = true) :
    g.operands? typed true ("() => " ++ text) =
      some (⟨"() => " ++ o.code, .arrow [] [] .absent [o.node]⟩ :: os) ∧
    g.commented typed ("() => " ++ text) = false
  /-- An expression in parentheses is an operand. -/
  inParentheses {text : String} {os : List Operand} {awaits : Bool}
    (h : g.operands? typed awaits text = some os) (hplain : g.commented typed text = false) :
    g.operands? typed awaits ("(" ++ text ++ ")") =
      some [⟨"(" ++ text ++ ")", .paren (Operand.together os)⟩] ∧
    g.commented typed ("(" ++ text ++ ")") = false
  /-- The operands of what stands in the parentheses of a call are its arguments. -/
  asArguments {text name : String} {os : List Operand} (hname : isName name = true)
    (h : g.operands? typed true text = some os) (hplain : g.commented typed text = false) :
    IsCallOf p typed ("$." ++ name ++ "(" ++ text ++ ");") name (os.map Operand.node)

end Stencil.Script
