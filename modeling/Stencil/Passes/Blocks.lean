import Stencil.Markup.Loop
import Stencil.Passes.Basic
import Stencil.Script.Language
import Stencil.Text.Search

/-!
# Blocks

The third pass reads the attributes of control blocks as their parameters: a condition, a loop
header or the name of a slot.
-/

namespace Stencil.Passes

open Stencil.Markup Stencil.Text
open Stencil.Script (Language Fault Expression)

/-- The slot without a name. -/
def defaultSlot : String := "default"

/-- An attribute of a block as text of its header. -/
def headerToken (a : Attribute) : String :=
  match a.text? with
  | some inner => if a.isAnonymous then inner else a.raw
  | none => a.raw

/-- The header of a block, put together from its attributes. -/
def blockHeader (e : Element) : String :=
  let tokens := (e.attributes.filter (·.fullName != "value")).map headerToken
  match (e.attribute? "value").bind Attribute.text? with
  | some value =>
      if tokens.isEmpty then value else "(" ++ value ++ ") " ++ joinWith " " tokens
  | none => joinWith " " tokens

/-- The name of a slot, from the attribute that gives it. -/
def slotName (e : Element) : String :=
  match (e.attribute? "name").bind Attribute.text? with
  | some text => if (trim text).isEmpty then defaultSlot else trim text
  | none => defaultSlot

/-- The parameters of a block. -/
def blockParams (read : String → Except Fault Expression) (kind : BlockKind) (e : Element) :
    Except Fault (Option BlockParams) :=
  match kind with
  | .ifBlock | .elseIf =>
      match read (conjoin (blockHeader e)) with
      | .ok condition => .ok (some (.condition condition))
      | .error f => .error f
  | .forBlock =>
      match Loop.parse read (blockHeader e) with
      | .ok header => .ok (some (.loop header))
      | .error f => .error f
  | .slot | .content => .ok (some (.slot (slotName e)))
  | .elseBlock => .ok none

/-- Whether a block of this kind is needed when the component runs. -/
def needsAnchor (kind : BlockKind) : Bool := kind == .ifBlock || kind == .forBlock || kind == .slot

/-- Reads the parameters of a block, once. -/
def blockStep (read : String → Except Fault Expression) (d : Document) (id : Nat) : Outcome :=
  let n := d.node id
  match n.type, n.element? with
  | .block kind, some e =>
      if n.params.block.isSome then { document := d }
      else
        match blockParams read kind e with
        | .error f => { document := d, error := some (.code f) }
        | .ok block =>
            let params := { n.params with
              block, reference := n.params.reference || needsAnchor kind }
            let n := { n with content := .element { e with attributes := [] }, params }
            { document := d.update id fun _ => n }
  | _, _ => { document := d }

/-- Reads the parameters of all blocks. -/
def blocks (lang : Language) (typed : Bool) (d : Document) : Outcome :=
  run (blockStep (lang.expression typed)) d

end Stencil.Passes
