import Stencil.Component.Visit
import Stencil.Proofs.Marker

/-!
# Templates that do not imitate markers

A template can write by hand what marks a reference.  `Unmarked` excludes this.  Names and values of
attributes, comments and raw content are looked at one by one; literal text has to be looked at
together with the text that it will be joined to when the nodes between them print nothing, such as a
style or a named fragment.  `Document.literalText` is what a node adds to such a stretch of text; a
space stands for anything else that it prints.
-/

namespace Stencil.Markup

open Stencil.Text Stencil.Render

/-- The literal text of some parts; a space stands for an expression. -/
def literalParts : List Part → List Char
  | [] => []
  | .literal text :: rest => text.toList ++ literalParts rest
  | .expression _ _ :: rest => ' ' :: literalParts rest

/-- The literal text of a value. -/
def Value.literal : Value → List Char
  | .empty => []
  | .text t _ => t.toList
  | .parts ps _ => literalParts ps

/-- The literal text of a text node. -/
def TextContent.literal : TextContent → List Char
  | .raw t => t.toList
  | .parts ps => literalParts ps

/-- Content that imitates no marker, its texts apart. -/
def Content.Unmarked : Content → Prop
  | .document | .text _ => True
  | .comment content =>
      Plain content.toList ∧ ¬ ['r', 'e', 'f', ':'] <+: content.toList
  | .element e =>
      (∀ a ∈ e.attributes, Plain a.name.base.toList ∧ Plain a.value.literal) ∧
        ∀ raw ∈ e.raw, Plain raw.toList

instance : (c : Content) → Decidable c.Unmarked
  | .document | .text _ => .isTrue trivial
  | .comment content =>
      inferInstanceAs
        (Decidable (Plain content.toList ∧ ¬ ['r', 'e', 'f', ':'] <+: content.toList))
  | .element e =>
      inferInstanceAs (Decidable
        ((∀ a ∈ e.attributes, Plain a.name.base.toList ∧ Plain a.value.literal) ∧
          ∀ raw ∈ e.raw, Plain raw.toList))

/-- Whether a node prints markup of its own. -/
def Node.prints (n : Node) : Bool :=
  match n.type, n.content, n.params.block with
  | .element, .element _, _ | .component, .element _, _ | .comment, .comment _, _ => true
  | .block .ifBlock, _, _ | .block .slot, _, _ | .block .forBlock, _, some (.loop _) => true
  | _, _, _ => false

namespace Document

/-- The literal text that a node adds to the text around it, looking at most a number of levels
below it. -/
def literalText (d : Document) : Nat → Nat → List Char
  | 0, _ => []
  | levels + 1, id =>
      let n := d.node id
      if n.prints then [' ']
      else
        match n.type, n.content with
        | .text, .text text => text.literal
        | .document, _ | .block .content, _ => (d.children id).flatMap (d.literalText levels)
        | _, _ => []

/-- The literal text among the children of a node. -/
def childText (d : Document) (id : Nat) : List Char :=
  (d.children id).flatMap (d.literalText d.size)

/-- The literal text among the children of an invoked component.  Content for one of its slots is
not put among them. -/
def defaultText (d : Document) (id : Nat) : List Char :=
  ((d.children id).filter fun child => (d.node child).type != .block .content).flatMap
    (d.literalText d.size)

/-- A document that imitates no marker.  The children of an invocation are read in both ways, since
it may be the root of a component as well. -/
def Unmarked (d : Document) : Prop :=
  ∀ id < d.size, (d.node id).content.Unmarked ∧ Plain (d.childText id) ∧
    ((d.node id).type = .component → Plain (d.defaultText id))

instance (d : Document) : Decidable d.Unmarked :=
  inferInstanceAs (Decidable (∀ id < d.size, (d.node id).content.Unmarked ∧ Plain (d.childText id) ∧
    ((d.node id).type = .component → Plain (d.defaultText id))))

end Document

end Stencil.Markup
