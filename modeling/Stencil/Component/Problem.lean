import Stencil.Markup.Tag

/-!
# Problems of components

What can be wrong with a template whose parts can all be read.
-/

namespace Stencil.Component

/-- A problem with the use of blocks and attributes. -/
inductive Problem where
  /-- A block that continues a chain which was never started. -/
  | withoutIf (kind : Markup.BlockKind)
  | strayContent
  | noValue (name : String)
  | unknownModifierAttribute (name : String)
  | noHandler (name : String)
  | unknownEventModifier (name : String)
  | noTarget (name : String)
  | unsupported (name component : String)
  /-- Two components of one name. -/
  | duplicate (name : String)
  deriving DecidableEq, Repr

/-- A name as it is shown in a message. -/
def shown (name : String) : String := "\x60" ++ name ++ "\x60"

/-- The wording of a problem. -/
def Problem.message : Problem → String
  | .withoutIf kind => "<" ++ kind.tag ++ "> block without a preceding <if>"
  | .strayContent => "<content> block outside a component invocation"
  | .noValue name => shown name ++ " needs a value"
  | .unknownModifierAttribute name => "Unknown modifier attribute " ++ shown name
  | .noHandler name => shown name ++ " needs a handler"
  | .unknownEventModifier name => "Unknown event modifier " ++ shown name
  | .noTarget name => shown name ++ " needs a target"
  | .unsupported name component =>
      shown name ++ " is not supported on component <" ++ component ++ ">"
  | .duplicate name => "Duplicate component name \"" ++ name ++ "\""

end Stencil.Component
