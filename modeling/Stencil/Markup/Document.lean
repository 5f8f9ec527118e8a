import Stencil.Markup.Node

/-!
# Documents

The nodes of a template in the order in which they were added, numbered from zero; node zero is the
root.  Nodes are added below others and cut off, but never taken out, so a number stays valid.  The
parent of a node always has a smaller number, so no walk from a node downwards takes more steps than
there are nodes.
-/

namespace Stencil.Markup

/-- A template as a table of nodes with their parents. -/
structure Document where
  nodes : Array Node
  parents : Array (Option Nat)
  deriving BEq, Repr

namespace Document

/-- The document that holds only its root. -/
def empty : Document := ⟨#[Node.document], #[none]⟩

instance : Inhabited Document := ⟨empty⟩

/-- The number of nodes, cut off ones included. -/
def size (d : Document) : Nat := d.nodes.size

/-- A node by its number. -/
def node (d : Document) (id : Nat) : Node := d.nodes.getD id Node.document

/-- The parent of a node. -/
def parent? (d : Document) (id : Nat) : Option Nat := d.parents.getD id none

/-- The children of a node in order. -/
def children (d : Document) (id : Nat) : List Nat := (d.node id).children

/-- Whether nothing is below the root. -/
def isEmpty (d : Document) : Bool := (d.children 0).isEmpty

/-- The document with one node changed. -/
def update (d : Document) (id : Nat) (f : Node → Node) : Document :=
  { d with nodes := d.nodes.modify id f }

/-- The document with a node added as the last child of another; its number is the old size. -/
def append (d : Document) (parent : Nat) (n : Node) : Document :=
  let id := d.size
  { nodes := (d.nodes.push n).modify parent fun p => { p with children := p.children ++ [id] }
    parents := d.parents.push (some parent) }

/-- The document with a node cut off from its parent. -/
def detach (d : Document) (id : Nat) : Document :=
  match d.parent? id with
  | none => d
  | some parent =>
      { nodes := d.nodes.modify parent fun p => { p with children := p.children.filter (· != id) }
        parents := d.parents.modify id fun _ => none }

/-- The place of a node among its parent's children. -/
def index? (d : Document) (id : Nat) : Option Nat :=
  match d.parent? id with
  | some parent => (d.children parent).findIdx? (· == id)
  | none => none

/-- The node a number of places after this one among the children of their parent. -/
def sibling? (d : Document) (id : Nat) (offset : Int) : Option Nat :=
  match d.parent? id, d.index? id with
  | some parent, some index =>
      let place := (index : Int) + offset
      if place < 0 then none else (d.children parent)[place.toNat]?
  | _, _ => none

/-- The nearest tag above a node, looking at most a number of steps up. -/
def tagAbove? (d : Document) : Nat → Nat → Option Nat
  | 0, _ => none
  | steps + 1, id =>
      match d.parent? id with
      | some parent => if (d.node parent).isTag then some parent else d.tagAbove? steps parent
      | none => none

/-- The nearest tag above a node. -/
def elementParent? (d : Document) (id : Nat) : Option Nat := d.tagAbove? d.size id

/-- The nodes at most a number of levels below a node, in document order. -/
def below (d : Document) : Nat → Nat → List Nat
  | 0, _ => []
  | levels + 1, id => (d.children id).flatMap fun child => child :: d.below levels child

/-- All nodes below a node, in document order. -/
def descendants (d : Document) (id : Nat) : List Nat := d.below d.size id

/-- All nodes that are not cut off, in document order. -/
def walk (d : Document) : List Nat := 0 :: d.descendants 0

end Document

end Stencil.Markup
