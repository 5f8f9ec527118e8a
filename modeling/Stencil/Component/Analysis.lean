import Stencil.Component.Basic

/-!
# Analysis of a component

Before code is generated, the styles of a component are put together, and the variables whose values
change are found: those that its scripts declare and that a script, an event handler or a binding
assigns.
-/

namespace Stencil

open Stencil.Markup
open Stencil.Script (Expression)

/-- Whether a script for one target runs on another. -/
def runsOn (only : Option Target) (t : Target) : Bool :=
  match only with
  | some target => target == t
  | none => true

/-- The texts, each once, in the order of their first places. -/
def unite (names more : List String) : List String :=
  more.foldl (fun found name => if found.contains name then found else found ++ [name]) names

namespace Component

/-- The nodes at most a number of levels below a node, not going into named fragments. -/
def nodesBelow (d : Document) : Nat → Nat → List Nat
  | 0, _ => []
  | levels + 1, id => (d.children id).flatMap fun child =>
      if (d.node child).type == .fragment then [child] else child :: nodesBelow d levels child

/-- The nodes of a component in document order.  Fragments inside it are listed, but not what is
below them. -/
def nodes (c : Component) (d : Document) : List Nat :=
  (if c.root = 0 then [] else [c.root]) ++ nodesBelow d d.size c.root

/-- The variable that a binding to an expression assigns. -/
def boundName? (e : Expression) : Option String :=
  if e.shape == .name || e.shape == .member then e.dependencies.head? else none

/-- The variables that an attribute assigns. -/
def assignedBy (a : Attribute) : List String :=
  match a.expression? with
  | none => []
  | some e =>
      match a.kind with
      | .event => e.assigned
      | .bind | .ref => (boundName? e).toList
      | _ => []

/-- The parts of a script that runs on a target. -/
def scriptOf (n : Node) (t : Target) : Option Script.Parts :=
  if n.type == .script && runsOn n.params.target t then n.params.script else none

/-- The blocks of a style. -/
def styleOf (n : Node) : List Style.Block :=
  if n.type == .style then (n.params.style.map Style.Sheet.blocks).getD [] else []

/-- The variables that a node assigns. -/
def assignedIn (n : Node) (t : Target) : List String :=
  let byScript := match scriptOf n t with
    | some parts => parts.assigned
    | none => []
  let byAttributes := match n.element? with
    | some e => e.attributes.flatMap assignedBy
    | none => []
  byScript ++ byAttributes

/-- Collects the style of a component and the variables whose values change. -/
def analyze (c : Component) (d : Document) (t : Target) : Component :=
  let own := ((c.nodes d).filter fun id => (d.node id).type != .fragment || id == c.root).map d.node
  let declared := own.foldl (fun found n =>
    match scriptOf n t with
    | some parts => unite found parts.declared
    | none => found) c.declared
  let assigned := own.flatMap (assignedIn · t)
  { c with
    declared
    updated := declared.filter assigned.contains
    style := ⟨c.style.blocks ++ own.flatMap styleOf⟩ }

end Component

end Stencil
