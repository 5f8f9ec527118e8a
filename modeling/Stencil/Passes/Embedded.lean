import Stencil.Passes.Basic
import Stencil.Script.Language
import Stencil.Style.Flatten

/-!
# Scripts and styles

The second pass reads the content of scripts and styles.  One typed script makes all expressions of
the template typed.
-/

namespace Stencil.Passes

open Stencil.Markup
open Stencil.Script (Language Fault Expression)

/-- The content of a script or style. -/
def rawContent (n : Node) : String := (n.element?.bind Element.raw).getD ""

/-- Reads the script or style of a node, once. -/
def embeddedStep (lang : Language) (d : Document) (id : Nat) : Outcome :=
  let n := d.node id
  match n.type with
  | .script =>
      if n.params.script.isSome then { document := d }
      else
        match lang.script n.params.typescript (rawContent n) with
        | .ok parts =>
            { document := d.update id fun n =>
                { n with params := { n.params with script := some parts } } }
        | .error f => { document := d, error := some (.code f) }
  | .style =>
      if n.params.style.isSome then { document := d }
      else
        match Style.Sheet.parse (rawContent n) with
        | .ok sheet =>
            { document := d.update id fun n =>
                { n with params := { n.params with style := some sheet } } }
        | .error f => { document := d, error := some (.style f) }
  | _ => { document := d }

/-- Reads all scripts and styles. -/
def embedded (lang : Language) (d : Document) : Outcome := run (embeddedStep lang) d

/-- Whether some script is typed. -/
def isTyped (d : Document) : Bool :=
  d.walk.any fun id => (d.node id).type == .script && (d.node id).params.typescript

end Stencil.Passes
