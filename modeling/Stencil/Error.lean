import Stencil.Options.Basic
import Stencil.Script.Fault
import Stencil.Style.Sheet

/-!
# Errors that stop the compiler

Embedded code or a stylesheet that cannot be read, or options that make no sense.  All other
problems are diagnostics.
-/

namespace Stencil

/-- Why a template was refused. -/
inductive Error where
  | code (fault : Script.Fault)
  | style (fault : Style.Fault)
  | options (fault : Options.Fault)
  deriving DecidableEq, Repr

/-- The wording of an error. -/
def Error.message : Error → String
  | .code fault => fault.message
  | .style fault => fault.message
  | .options fault => fault.message

end Stencil
