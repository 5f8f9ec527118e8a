import Stencil.Script.Fault
import Stencil.Script.Scope
import Stencil.Text.Offset

/-!
# Parts of a script

A script is split into its imports, its exports and its other statements, each as it was written.
-/

namespace Stencil.Script

open Stencil.Text

/-- The parts of a script. -/
structure Parts where
  imports : List String := []
  exports : List String := []
  /-- The other statements, in order. -/
  statements : List String := []
  /-- Names that statements of the script itself declare as variables that may change. -/
  declared : List String := []
  /-- Names of the script's own scope that it assigns anywhere. -/
  assigned : List String := []
  typescript : Bool := false
  deriving DecidableEq, Repr

/-- Where a statement goes. -/
inductive Place where
  | imported | exported | kept
  deriving DecidableEq, Repr

/-- Where a statement of a script goes. -/
def Node.place : Node → Place
  | .importing _ => .imported
  | .exporting _ _ | .exportingDefault _ | .exportingAll _ => .exported
  | _ => .kept

/-- Names of the variables that may change which a statement declares, exported or not. -/
def Node.declares : Node → List String
  | .variables .mutable ds => declaredNames (.variables .mutable ds)
  | .variables .hoisted ds => declaredNames (.variables .hoisted ds)
  | .exporting _ (.variables .mutable ds) => declaredNames (.variables .mutable ds)
  | .exporting _ (.variables .hoisted ds) => declaredNames (.variables .hoisted ds)
  | _ => []

/-- Splits a script into its parts. -/
def Parts.parse (p : Parser) (typescript : Bool) (text : String) : Except Fault Parts :=
  match p.program? typescript text with
  | none => .error .invalidScript
  | some items =>
      let cs := text.toList
      let slices (place : Place) : List String :=
        (items.filter (·.node.place == place)).map fun i =>
          String.ofList ((slice? i.start i.stop cs).getD [])
      .ok { imports := slices .imported
            exports := slices .exported
            statements := slices .kept
            declared := distinct (items.flatMap (·.node.declares))
            assigned := assignedNames (usesAll p.bindings {} (items.map Item.node))
            typescript }

end Stencil.Script
