import Stencil.Markup.Build
import Stencil.Passes.Attributes
import Stencil.Passes.Blocks
import Stencil.Passes.Embedded
import Stencil.Passes.Texts
import Stencil.Passes.Types

/-!
# All passes

The passes in their order.  Each skips what it has done before, so a second run changes nothing.
-/

namespace Stencil

open Stencil.Markup Stencil.Source
open Stencil.Script (Language)

/-- One of the passes. -/
inductive Pass where
  | types | embedded | blocks | attributes | texts
  deriving DecidableEq, Repr

/-- Runs one pass in a dialect. -/
def Pass.run (lang : Language) (typed : Bool) (d : Document) : Pass → Passes.Outcome
  | .types => Passes.types d
  | .embedded => Passes.embedded lang d
  | .blocks => Passes.blocks lang typed d
  | .attributes => Passes.attributes lang typed d
  | .texts => Passes.texts lang typed d

/-- The dialect after a pass has succeeded: reading the scripts decides it. -/
def Pass.dialect (typed : Bool) (d : Document) : Pass → Bool
  | .embedded => Passes.isTyped d
  | _ => typed

/-- The passes in their order. -/
def Pass.all : List Pass := [.types, .embedded, .blocks, .attributes, .texts]

/-- Runs some passes one after another, up to the first error. -/
def runPasses (lang : Language) (typed : Bool) : List Pass → Document → Passes.Outcome
  | [], d => { document := d }
  | p :: rest, d =>
      let o := p.run lang typed d
      match o.error with
      | some _ => o
      | none =>
          let more := runPasses lang (p.dialect typed o.document) rest o.document
          { more with diagnostics := o.diagnostics ++ more.diagnostics }

/-- Runs all passes. -/
def transform (lang : Language) (d : Document) : Passes.Outcome := runPasses lang false Pass.all d

/-- Reads a template and runs all passes over it. -/
def parseTemplate (lang : Language) (o : Options) (source : String) : Passes.Outcome :=
  let (d, found) := Markup.parse o.markup source
  let outcome := transform lang d
  { outcome with diagnostics := found ++ outcome.diagnostics }

end Stencil
