import Stencil.Proofs.PrintedDocument
import Stencil.Proofs.Turns

/-!
# Documents as they would be read

The passes leave parts in the place of texts and values, and the name of a component in the place of
the attribute that gave it.  Printing writes all of this as text again.  `Document.written` is the
document with that text in it, as if it had just been read: it is printed alike (`print_written`).

It may have the tree of a document that was read without a problem, with the same texts, comments and
tags but for their attributes (`Document.Resembles`).  If its attributes are such as could have been
written, then it shows trees, and where these are legible, what is printed of it is read as the same
trees (`parse_resembling`).
-/

namespace Stencil.Markup

open Stencil.Text Stencil.Passes

/-- A value as it is printed. -/
def Value.written : Value → Value
  | .empty => .empty
  | .text t quote => .text t quote
  | .parts [.expression e _] .brace => .text e.code .brace
  | .parts ps _ => .text (printParts ps) .double

/-- The attribute with its value as it is printed. -/
def Attribute.written (a : Attribute) : Attribute := { a with value := a.value.written }

/-- The attribute that names a component. -/
def fragmentAttribute (affix : Bool) (name : String) : Attribute where
  name := if affix then .split fragmentName else { base := fragmentName }
  value := .text name .double
  raw := fragmentName

/-- The element with its attributes as they are printed, behind the name of its component. -/
def Element.written (affix : Bool) (fragment : Option String) (e : Element) : Element :=
  { e with attributes :=
      (fragment.map (fragmentAttribute affix)).toList ++ e.attributes.map Attribute.written }

/-- The content of a node as it is printed. -/
def Content.written (affix : Bool) (fragment : Option String) : Content → Content
  | .document => .document
  | .element e => .element (e.written affix fragment)
  | .text (.raw t) => .text (.raw t)
  | .text (.parts ps) => .text (.raw (printParts ps))
  | .comment c => .comment c

/-- The node with its content as it is printed. -/
def Node.written (affix : Bool) (n : Node) : Node :=
  { n with
    content := n.content.written affix n.params.fragment
    params := { n.params with fragment := none } }

/-- The document with what is printed of its nodes. -/
def Document.written (affix : Bool) (d : Document) : Document :=
  { d with nodes := d.nodes.map (Node.written affix) }

/-- The attribute for the name of a fragment has its full name. -/
theorem full_fragmentAttribute (affix : Bool) (name : String) :
    (fragmentAttribute affix name).fullName = fragmentName := by
  cases affix with
  | false => simp [fragmentAttribute, Attribute.fullName, AttributeName.full]
  | true => exact AttributeName.full_split fragmentName

/-- An attribute is printed as it is written. -/
theorem Attribute.print_written (a : Attribute) : a.written.print = a.print := by
  obtain ⟨name, value, kind, raw, position⟩ := a
  unfold written Value.written
  split <;> simp_all [Attribute.print, Attribute.fullName, Quote.around, printValue]

/-- So is an opening tag. -/
theorem printOpening_written (affix : Bool) (fragment : Option String) (e : Element) :
    printOpening (e.written affix fragment) none = printOpening e fragment := by
  have hprint : ∀ name, (fragmentAttribute affix name).print =
      fragmentName ++ "=\"" ++ name ++ "\"" := by
    intro name
    have hvalue : (fragmentAttribute affix name).value = .text name .double := rfl
    apply String.toList_injective
    simp [Attribute.print, hvalue, full_fragmentAttribute, printValue, Quote.around, fragmentName]
  have hattributes : (e.attributes.map Attribute.written).map (" " ++ ·.print) =
      e.attributes.map (" " ++ ·.print) := by
    simp [Attribute.print_written]
  cases fragment with
  | none =>
      simp only [printOpening, Element.written, Option.map_none, Option.toList_none, List.nil_append,
        hattributes]
      rfl
  | some name =>
      simp only [printOpening, Element.written, Option.map_some, Option.toList_some,
        List.singleton_append, List.map_cons, hattributes, hprint, String.join_cons]
      apply String.toList_injective
      simp
      rfl

namespace Document

variable (affix : Bool) (d : Document)

/-- Writing a document adds no node. -/
@[simp] theorem size_written : (d.written affix).size = d.size := by
  simp [size, written]

/-- Writing a document changes each node by itself. -/
@[simp] theorem node_written (id : Nat) : (d.written affix).node id = (d.node id).written affix := by
  by_cases hlt : id < d.nodes.size
  · simp [node, written, Array.getD, hlt]
  · have hge : d.size ≤ id := Nat.not_lt.mp hlt
    rw [node_of_size_le hge, node_of_size_le (by rw [size_written]; exact hge)]
    rfl

/-- Writing a document keeps the children of each node. -/
@[simp] theorem children_written (id : Nat) : (d.written affix).children id = d.children id := by
  rw [children, node_written]
  rfl

/-- A node is printed as it is written. -/
theorem printNode_written (levels id : Nat) :
    (d.written affix).printNode levels id = d.printNode levels id := by
  induction levels generalizing id with
  | zero => rfl
  | succ levels ih =>
      have hbelow : (d.node id).children.map ((d.written affix).printNode levels) =
          (d.node id).children.map (d.printNode levels) :=
        List.map_congr_left fun child _ => ih child
      simp only [printNode, node_written, Node.written]
      cases (d.node id).content with
      | document | comment => rfl
      | text t => cases t <;> rfl
      | element e =>
          have hopening := printOpening_written affix (d.node id).params.fragment e
          simp only [Content.written, hopening, hbelow]
          rfl

/-- **What is printed** is what would be read. -/
theorem print_written : (d.written affix).print = d.print := by
  simp only [print, children_written, size_written]
  congr 1
  exact List.map_congr_left fun id _ => d.printNode_written affix d.size id

end Document

/-- The content without attributes. -/
def Content.bald : Content → Content
  | .element e => .element { e with attributes := [] }
  | .document => .document
  | .text t => .text t
  | .comment c => .comment c

/-- The documents have the same tree, with the same texts, comments and tags but for their
attributes. -/
structure Document.Resembles (d d' : Document) : Prop where
  tree : d.SameTree d'
  bald : ∀ i, (d'.node i).content.bald = (d.node i).content.bald

namespace Node

variable {n m : Node}

/-- Content that is alike without attributes is the same, or an element with the same name and
flags. -/
theorem content_cases_of_bald (h : m.content.bald = n.content.bald) :
    m.content = n.content ∨ ∃ e e' : Element, n.content = .element e ∧ m.content = .element e' ∧
      e'.name = e.name ∧ e'.empty = e.empty ∧ e'.selfClosing = e.selfClosing ∧ e'.raw = e.raw := by
  cases hn : n.content <;> cases hm : m.content <;> simp_all [Content.bald]

/-- Alike content is a text both times or not at all. -/
theorem isText_of_bald (h : m.content.bald = n.content.bald) : m.isText = n.isText := by
  rcases content_cases_of_bald h with heq | ⟨e, e', he, he', -⟩
  · exact isText_congr heq
  · simp [isText, he, he', Content.type]

/-- Alike content is a blank text both times or not at all. -/
theorem isBlankText_of_bald (h : m.content.bald = n.content.bald) : m.isBlankText = n.isBlankText := by
  rcases content_cases_of_bald h with heq | ⟨e, e', he, he', -⟩
  · exact isBlankText_congr heq
  · simp [isBlankText, he, he']

/-- Alike content is a tag both times or not at all. -/
theorem isTag_of_bald (h : m.content.bald = n.content.bald) : m.isTag = n.isTag := by
  rcases content_cases_of_bald h with heq | ⟨e, e', he, he', -⟩
  · rw [isTag, isTag, element?_congr heq]
  · simp [isTag, element?, he, he']

/-- Alike content is preformatted both times or not at all. -/
theorem isPreformatted_of_bald (h : m.content.bald = n.content.bald) :
    m.isPreformatted = n.isPreformatted := by
  rcases content_cases_of_bald h with heq | ⟨e, e', he, he', hname, -⟩
  · exact isPreformatted_congr heq
  · simp [isPreformatted, element?, he, he', hname]

end Node

namespace Document.Resembles

variable {d d' : Document} {s : Settings}

/-- A document that resembles one with its links forward has them forward. -/
theorem forward (h : d.Resembles d') (hd : d.Forward) : d'.Forward := by
  intro p child hchild
  rw [h.tree.children] at hchild
  rw [h.tree.size]
  exact hd p child hchild

/-- A document that resembles a linked one is linked. -/
theorem linked (h : d.Resembles d') (hd : d.Linked) : d'.Linked where
  child p id hid := by
    rw [h.tree.children] at hid
    rw [parent?, h.tree.parents]
    exact hd.child p id hid
  host p hp := by
    rw [h.tree.children] at hp
    rw [Node.isTag_of_bald (h.bald p)]
    exact hd.host p hp
  root := by
    rw [parent?, h.tree.parents]
    exact hd.root

/-- Documents that resemble each other shelter the same nodes. -/
theorem sheltered_iff (h : d.Resembles d') (id : Nat) : d'.Sheltered id ↔ d.Sheltered id :=
  sheltered_congr (fun _ => True) (fun i _ => by rw [parent?, parent?, h.tree.parents])
    (fun _ _ _ _ => trivial) (fun i _ => Node.isPreformatted_of_bald (h.bald i)) trivial

/-- A document that resembles a tidy one is tidy. -/
theorem tidy (h : d.Resembles d') (hd : d.Tidy s) : d'.Tidy s := by
  intro p i hi text htext
  rw [h.tree.children] at hi
  rw [h.sheltered_iff]
  refine hd p i hi text ?_
  rcases Node.content_cases_of_bald (h.bald i) with heq | ⟨e, e', -, he', -⟩
  · rw [← heq, htext]
  · simp [he'] at htext

/-- Whether what is above and beside a node is regular does not depend on attributes. -/
theorem regular (h : d.Resembles d') (hd : d.Regular s) (hnodes : ∀ i, (d'.node i).Scanned s) :
    d'.Regular s where
  nodes := hnodes
  inner i hpos hlt := by
    rw [h.tree.size] at hlt
    have hinner := hd.inner i hpos hlt
    rcases Node.content_cases_of_bald (h.bald i) with heq | ⟨e, e', -, he', -⟩
    · rwa [heq]
    · simp [he', Content.type]
  beside p := by
    rw [h.tree.children]
    exact isChain_apart_congr (hd.beside p) fun i _ => Node.isText_of_bald (h.bald i)

/-- Documents that resemble each other let the same nodes flow. -/
theorem flowing_eq (h : d.Resembles d') (levels id : Nat) : d'.flowing levels id = d.flowing levels id := by
  induction levels generalizing id with
  | zero => rfl
  | succ levels ih =>
      simp only [flowing, h.tree.children, Node.isTag_of_bald (h.bald _),
        Node.isPreformatted_of_bald (h.bald _), ih]

/-- What resembles a trimmed document shows trimmed trees. -/
theorem trimmed (h : d.Resembles d') {ts : List Tree} (hshows : d'.Shows ts)
    (htop : ∀ i ∈ d.children 0, (d.node i).isBlankText = false)
    (hclipped : ∀ i ∈ d.flowing d.size 0, d.Clipped i) : Trimmed ts := by
  have hblank : ∀ i, (d'.node i).isBlankText = (d.node i).isBlankText := fun i =>
    Node.isBlankText_of_bald (h.bald i)
  refine hshows.trimmed (fun i hi => ?_) fun i hi => ?_
  · rw [h.tree.children] at hi
    rw [hblank]
    exact htop i hi
  · rw [h.tree.size, h.flowing_eq] at hi
    obtain ⟨hhead, hlast⟩ := hclipped i hi
    constructor
    · intro j hj
      rw [h.tree.children] at hj
      rw [hblank]
      exact hhead j hj
    · intro j hj
      rw [h.tree.children] at hj
      rw [hblank]
      exact hlast j hj

end Document.Resembles

variable {s : Settings} {source : String} {d : Document} {ts : List Tree}

/-- **Reading again what resembles a document that was read.**  If its nodes could have been written, it
shows trees, and if these are legible, then what is printed of them is read without a problem and shows
the same trees. -/
theorem parse_resembling (h : (parse s source).2 = []) (hsame : (parse s source).1.Resembles d)
    (hnodes : ∀ i, (d.node i).Scanned s) (hfragment : ∀ i, (d.node i).params.fragment = none) :
    ∃ ts, d.Shows ts ∧ (TreesLegible [] ts →
      (parse s d.print).2 = [] ∧ (parse s d.print).1.Shows ts) := by
  have hregular := hsame.regular (parse_regular h) hnodes
  have hlinked := hsame.linked (parse_linked s source)
  obtain ⟨ts, hshows⟩ := hregular.exists_shows
    (hsame.forward (parse_wellFormed s source).forward) hfragment
  refine ⟨ts, hshows, fun hlegible => ?_⟩
  have hscanned := hregular.trees_scanned hshows (hregular.beside 0)
  have hroot : ¬ ((d.node 0).isPreformatted = true ∨ d.Sheltered 0) := by
    rw [Node.isPreformatted_of_bald (hsame.bald 0), hsame.sheltered_iff]
    exact parse_root_unsheltered s source
  have hkept := (hsame.tidy (parse_tidy s source)).trees_kept hregular hlinked hshows
    (List.Subset.refl _) false (by simpa using hroot)
  refine parse_trees (scan_legible hscanned hlegible hshows.toList_print) hshows.toList_print
    hscanned.sound hkept fun htrim => ?_
  have hbuilt := built_regular (s := s) (scan_clean h)
  have hbuiltLinked := built_document_linked s source
  rw [parse_document, if_pos htrim] at hsame
  exact hsame.trimmed hshows (fun _ => hbuiltLinked.trimBlanks_top) fun _ =>
    hbuilt.spaced.trimBlanks_clipped hbuiltLinked

end Stencil.Markup
