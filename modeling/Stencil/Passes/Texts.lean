import Stencil.Markup.Interpolation
import Stencil.Passes.Basic
import Stencil.Script.Language

/-!
# Texts

The fifth pass divides texts into parts.  A tag with a text whose value can change is needed when
the component runs.
-/

namespace Stencil.Passes

open Stencil.Markup
open Stencil.Script (Language Fault Expression)

/-- Marks the tag above a node as needed. -/
def markAbove (d : Document) (id : Nat) : Document :=
  match d.elementParent? id with
  | some parent => d.update parent fun n => { n with params := { n.params with reference := true } }
  | none => d

/-- Divides a text, once. -/
def textStep (read : String → Except Fault Expression) (d : Document) (id : Nat) : Outcome :=
  let n := d.node id
  match n.type, n.content with
  | .text, .text (.raw text) =>
      match interpolate read text with
      | .error f => { document := d, error := some (.code f) }
      | .ok parts =>
          let d := d.update id fun n => { n with content := .text (.parts parts) }
          { document := if parts.any Part.isDynamic then markAbove d id else d }
  | _, _ => { document := d }

/-- Divides all texts. -/
def texts (lang : Language) (typed : Bool) (d : Document) : Outcome :=
  run (textStep (lang.expression typed)) d

end Stencil.Passes
