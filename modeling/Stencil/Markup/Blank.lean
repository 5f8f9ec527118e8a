import Stencil.Markup.Document

/-!
# Blanks in markup

Runs of blanks mean one space, and blank text at the edges of an element or at the top of a document
means nothing.  Preformatted elements keep theirs.
-/

namespace Stencil.Markup

open Stencil.Text

/-- The text with each run of blanks written as one space; `after` if a blank stands before it. -/
def collapseFrom (after : Bool) : List Char → List Char
  | [] => []
  | c :: rest =>
      if isBlank c then
        if after then collapseFrom true rest else ' ' :: collapseFrom true rest
      else c :: collapseFrom false rest

/-- The text with each run of blanks written as one space. -/
def collapse (text : String) : String := String.ofList (collapseFrom false text.toList)

namespace Document

/-- The document without a node if that is blank text. -/
def dropBlank (d : Document) (id : Option Nat) : Document :=
  match id with
  | some id => if (d.node id).isBlankText then d.detach id else d
  | none => d

/-- The document without blank text at the edges of a node. -/
def trimEdges (d : Document) (id : Nat) : Document :=
  let d := d.dropBlank (d.children id).head?
  d.dropBlank (d.children id).getLast?

/-- The tags at most a number of levels below a node that are outside preformatted ones. -/
def flowing (d : Document) : Nat → Nat → List Nat
  | 0, _ => []
  | levels + 1, id => (d.children id).flatMap fun child =>
      let n := d.node child
      if n.isTag && !n.isPreformatted then child :: d.flowing levels child else []

/-- The document without blank text at its top and at the edges of its elements. -/
def trimBlanks (d : Document) : Document :=
  let d := (d.children 0).foldl (fun d id => d.dropBlank (some id)) d
  (d.flowing d.size 0).foldl trimEdges d

end Document

end Stencil.Markup
