import Stencil.Error
import Stencil.Markup.Document
import Stencil.Source.Diagnostic

/-!
# Passes over a document

A pass visits the nodes in document order and changes one after another.  It stops at the first
error, and the document keeps what was changed before.
-/

namespace Stencil.Passes

open Stencil.Markup Stencil.Source

/-- What a pass leaves behind. -/
structure Outcome where
  document : Document
  diagnostics : List Diagnostic := []
  error : Option Error := none

/-- Changes the listed nodes one after another, up to the first error. -/
def visit (step : Document → Nat → Outcome) : List Nat → Document → Outcome
  | [], d => { document := d }
  | id :: rest, d =>
      let o := step d id
      match o.error with
      | some _ => o
      | none =>
          let more := visit step rest o.document
          { more with diagnostics := o.diagnostics ++ more.diagnostics }

/-- A pass with the given step. -/
def run (step : Document → Nat → Outcome) (d : Document) : Outcome := visit step d.walk d

/-- A problem that a pass reports. -/
inductive Problem where
  /-- The attribute that names a component has no value. -/
  | namelessFragment (tag : String)
  /-- A value in braces without a name is no plain name. -/
  | anonymous (raw : String)
  deriving DecidableEq, Repr

/-- The wording of a problem. -/
def Problem.message : Problem → String
  | .namelessFragment tag => fragmentName ++ " on <" ++ tag ++ "> requires a value"
  | .anonymous raw => "Anonymous attribute " ++ raw ++ " must be a single identifier"

end Stencil.Passes
