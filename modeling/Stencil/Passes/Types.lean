import Stencil.Passes.Basic
import Stencil.Text.Trim

/-!
# Types

The first pass gives every tag its type and every attribute its kind.
-/

namespace Stencil.Passes

open Stencil.Markup Stencil.Source Stencil.Text

/-- The kind of an attribute, from its mark and its suffix. -/
def attributeKind (a : Attribute) : AttributeKind :=
  match a.name.mark with
  | some '@' => .event
  | some ':' => .bind
  | some '#' => .ref
  | some '*' => .action
  | _ => if a.name.suffix.isSome then .modifier else .plain

/-- The target that an attribute of a script names. -/
def attributeTarget? (a : Attribute) : Option Target :=
  match a.value with
  | .empty => Target.ofWord? a.fullName
  | .text text _ => if a.fullName == "generate" then Target.ofWord? (trim text) else none
  | .parts _ _ => none

/-- An element without the attribute that names a component, and that attribute. -/
def takeFragment (e : Element) : Option Attribute × Element :=
  match e.attributes.findIdx? (·.fullName == fragmentName) with
  | some i => (e.attributes[i]?, { e with attributes := e.attributes.eraseIdx i })
  | none => (none, e)

/-- The name that an attribute gives to a component. -/
def fragmentOf (a : Attribute) : Option String :=
  match a.text? with
  | some text => if (trim text).isEmpty then none else some (trim text)
  | none => none

/-- The type of an element, given whether it is named as a component. -/
def typeOf (name : String) (named : Bool) : NodeType :=
  if lower name == "script" then .script
  else if lower name == "style" then .style
  else if named then .fragment
  else
    match BlockKind.ofTag? name with
    | some kind => .block kind
    | none => if isKnown name then .element else .component

/-- The node of an element with its type, and what is wrong with its name. -/
def typeElement (n : Node) (e : Element) : Node × List Diagnostic :=
  let (named, e) := takeFragment e
  let fragment := named.bind fragmentOf
  let found : List Diagnostic := match named with
    | some a =>
        if fragment.isSome then [] else [.error (Problem.namelessFragment e.name).message a.span]
    | none => []
  let e := { e with attributes := e.attributes.map fun a => { a with kind := attributeKind a } }
  let type := typeOf e.name fragment.isSome
  let isScript := type == .script
  let params := { n.params with
    typed := true
    reference := n.params.reference || type == .component
    fragment
    target := if isScript then e.attributes.findSome? attributeTarget? else none
    typescript := isScript && ((e.attribute? "lang").bind Attribute.text?) == some "ts" }
  ({ n with type, content := .element e, params }, found)

/-- Gives a node its type, once. -/
def typeStep (d : Document) (id : Nat) : Outcome :=
  let n := d.node id
  if n.type != .element || n.params.typed then { document := d }
  else
    match n.element? with
    | none => { document := d }
    | some e =>
        let (n, found) := typeElement n e
        { document := d.update id fun _ => n, diagnostics := found }

/-- Gives every tag its type and every attribute its kind. -/
def types (d : Document) : Outcome := run typeStep d

end Stencil.Passes
