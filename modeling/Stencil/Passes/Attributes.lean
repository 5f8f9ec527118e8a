import Stencil.Markup.Interpolation
import Stencil.Passes.Basic
import Stencil.Script.Language

/-!
# Attributes

The fourth pass divides the values of attributes into parts.  A value in braces is one expression; a
binding without a value stands for the name it binds; a value alone, in braces, is also the name.
-/

namespace Stencil.Passes

open Stencil.Markup Stencil.Source Stencil.Text
open Stencil.Script (Language Fault Expression)

/-- The name that a binding without a value stands for. -/
def impliedName (a : Attribute) : Option String :=
  match a.kind with
  | .event | .bind | .ref => some a.name.base
  | .modifier => some (a.name.modifiers.getLast?.getD "")
  | .plain | .action => none

/-- Whether a value of this kind is an expression even without braces. -/
def isExpressionKind (kind : AttributeKind) : Bool :=
  kind == .event || kind == .bind || kind == .ref || kind == .action

/-- The value of an attribute, divided into parts. -/
def dividedValue (read : String → Except Fault Expression) (a : Attribute) : Except Fault Value :=
  match a.value with
  | .parts parts quote => .ok (.parts parts quote)
  | .empty =>
      match impliedName a with
      | none => .ok .empty
      | some name =>
          if isName name then do
            let e ← read name
            return .parts [.expression e false] .brace
          else .ok .empty
  | .text text .brace =>
      if isSpaces text then .ok (.parts [.literal "\x7b\x7d"] .brace)
      else do
        let e ← read text
        match e.literal, a.kind with
        | some folded, .plain => return .parts [.literal folded] .brace
        | _, _ => return .parts [.expression e false] .brace
  | .text text quote =>
      if isExpressionKind a.kind && !hasInterpolation text && !isSpaces text then do
        let e ← read text
        return .parts [.expression e false] quote
      else do
        let parts ← interpolate read text
        return .parts parts quote

/-- An attribute without a name, named after its value if that is a plain name. -/
def named? (read : String → Except Fault Expression) (a : Attribute) :
    Except Fault (Option Attribute) :=
  match a.text? with
  | none => .ok none
  | some text =>
      let name := trim text
      if isName name then do
        let e ← read name
        return some { a with
          name := { a.name with base := name }, value := .parts [.expression e false] .brace }
      else .ok none

/-- The attributes of an element as the pass leaves them. -/
structure Divided where
  attributes : List Attribute := []
  diagnostics : List Diagnostic := []
  fault : Option Fault := none

/-- Divides the values of some attributes, up to the first fault. -/
def divide (read : String → Except Fault Expression) : List Attribute → Divided
  | [] => {}
  | a :: rest =>
      let result : Except Fault (Option Attribute) :=
        if a.isAnonymous then named? read a
        else
          match dividedValue read a with
          | .ok value => .ok (some { a with value })
          | .error f => .error f
      match result with
      | .error f => { fault := some f }
      | .ok (some a) =>
          let more := divide read rest
          { more with attributes := a :: more.attributes }
      | .ok none =>
          let more := divide read rest
          let found := Diagnostic.error (Problem.anonymous a.raw).message a.span
          { more with diagnostics := found :: more.diagnostics }

/-- Divides the values of a node's attributes.  After a fault the element has none. -/
def attributeStep (read : String → Except Fault Expression) (d : Document) (id : Nat) : Outcome :=
  let n := d.node id
  match n.type, n.element? with
  | .element, some e | .component, some e | .fragment, some e =>
      let divided := divide read e.attributes
      match divided.fault with
      | some f =>
          { document := d.update id (Node.mapElement fun e => { e with attributes := [] })
            diagnostics := divided.diagnostics
            error := some (.code f) }
      | none =>
          let reference := n.params.reference || divided.attributes.any Attribute.needsReference
          let n := { n with
            content := .element { e with attributes := divided.attributes }
            params := { n.params with reference } }
          { document := d.update id fun _ => n, diagnostics := divided.diagnostics }
  | _, _ => { document := d }

/-- Divides the values of all attributes. -/
def attributes (lang : Language) (typed : Bool) (d : Document) : Outcome :=
  run (attributeStep (lang.expression typed)) d

end Stencil.Passes
