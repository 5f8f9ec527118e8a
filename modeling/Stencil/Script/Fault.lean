/-!
# Faults of embedded code

Why an expression, a script or a loop header of a template was refused.
-/

namespace Stencil.Script

/-- Why a piece of embedded code was refused. -/
inductive Fault where
  /-- An expression without any code. -/
  | empty
  /-- Code that is no expression. -/
  | invalidExpression (code : String)
  /-- A loop header that names no item. -/
  | noItem (header : String)
  /-- Text that is no script. -/
  | invalidScript
  /-- A name of a loop that is no identifier, and the header it stands in. -/
  | invalidName (name header : String)
  deriving DecidableEq, Repr

/-- The wording of a fault. -/
def Fault.message : Fault → String
  | .empty => "Empty expression"
  | .invalidExpression code => "Invalid expression \x60" ++ code ++ "\x60"
  | .noItem header =>
      "Invalid expression \x60" ++ header ++ "\x60: for block expects \x60ITERABLE as ITEM\x60"
  | .invalidScript => "Invalid script"
  | .invalidName name header =>
      "Invalid binding name \x60" ++ name ++ "\x60 in \x60" ++ header ++ "\x60"

end Stencil.Script
