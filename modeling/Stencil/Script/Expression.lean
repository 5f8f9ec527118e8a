import Stencil.Decimal.Shortest
import Stencil.Script.Fault
import Stencil.Script.Scope
import Stencil.Text.Trim

/-!
# Expressions of templates

An expression is kept as it was written, with what code generation asks of it: the names it reads
and assigns, its shape, and its value if it is a literal.

`Expression.parse` reads the text twice.  Its shape and value are those of the expression at its
start; its names are those of the whole text, which must be an expression once it stands in
parentheses on lines of its own.
-/

namespace Stencil.Script

open Stencil.Text Stencil.Decimal

/-- The shape of an expression. -/
inductive Shape where
  | name | member | function | literal | other
  deriving DecidableEq, Repr

/-- An expression and the facts that code generation needs. -/
structure Expression where
  /-- The text of the expression, without blanks around it. -/
  code : String
  /-- Names read from the scope around it, in the order of first use. -/
  dependencies : List String
  /-- Names of that scope at the roots of assigned targets. -/
  assigned : List String
  shape : Shape
  /-- The text of a string, number or boolean literal. -/
  literal : Option String
  deriving DecidableEq, Repr

namespace Expression

/-- Whether the expression reads no name, so that its value never changes. -/
def isStatic (e : Expression) : Bool := e.dependencies.isEmpty

/-- Whether the expression reads the name. -/
def dependsOn (e : Expression) (name : String) : Bool := e.dependencies.contains name

/-- Whether the expression can be passed where a function is expected. -/
def isCallable (e : Expression) : Bool :=
  e.shape == .name || e.shape == .member || e.shape == .function

end Expression

/-- The shape of an expression, through parentheses. -/
def Node.shape : Node → Shape
  | .ident _ => .name
  | .member _ _ | .index _ _ | .privateMember _ _ => .member
  | .arrow _ _ _ _ | .function _ _ _ _ _ _ => .function
  | .literal (.string _) | .literal (.number _) | .literal (.boolean _) => .literal
  | .paren e => e.shape
  | _ => .other

/-- The text of a string, number or boolean literal, through parentheses. -/
def Node.literalText? : Node → Option String
  | .literal (.string value) => some value
  | .literal (.number value) => some value.text
  | .literal (.boolean value) => some (if value then "true" else "false")
  | .paren e => e.literalText?
  | _ => none

/-- Reads an expression. -/
def Expression.parse (p : Parser) (typescript : Bool) (text : String) :
    Except Fault Expression :=
  let code := trim text
  if code.isEmpty then .error .empty
  else
    match p.expression? typescript code, p.program? typescript ("(\n" ++ code ++ "\n);") with
    | some e, some items =>
        let found := usesAll p.bindings {} (items.map Item.node)
        .ok { code
              dependencies := readNames found
              assigned := assignedNames found
              shape := e.shape
              literal := e.literalText? }
    | _, _ => .error (.invalidExpression code)

/-- Reads the name of a loop variable; `header` is where it stands. -/
def parseName (text header : String) : Except Fault String :=
  let name := trim text
  if isName name then .ok name else .error (.invalidName name header)

end Stencil.Script
