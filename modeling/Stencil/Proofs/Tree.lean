import Mathlib.Data.Finset.Card
import Stencil.Markup.Print
import Stencil.Proofs.Tile

/-!
# Trees of markup

A document is a table of nodes; `Tree` is the tree that it shows.  A tree has a written form,
`Tree.chars`, and `Tree.WellFormed` says which trees can be read again from it.  Printing a document
writes the trees that it shows (`Document.Shows.toList_print`).
-/

namespace Stencil.Markup

open Stencil.Text

/-- An attribute as the author wrote it: a name and perhaps a value between quotes of some kind. -/
structure PlainAttribute where
  name : AttributeName
  value : Option (String × Quote)
  deriving DecidableEq, Repr

/-- An element without its children. -/
structure Tag where
  name : String
  empty : Bool
  selfClosing : Bool
  attributes : List PlainAttribute
  raw : Option String
  deriving DecidableEq, Repr

/-- A tree of elements, texts and comments. -/
inductive Tree where
  | text (text : String)
  | comment (content : String)
  | element (tag : Tag) (children : List Tree)

/-- Whether the tree is a text. -/
def Tree.isText : Tree → Bool
  | .text _ => true
  | _ => false

/-- Whether raw content stands between the tags of the element. -/
def Tag.holdsRaw (t : Tag) : Bool := !t.selfClosing && isRawText t.name

/-- Characters inside a pair of braces, the second of which closes the first. -/
def Matched (inner : List Char) : Prop := closing 0 .code (inner ++ ['\x7d']) = some (inner, [])

/-- A concatenation of characters other than an opening brace and of matched spans in braces; outside
the spans, the characters have a property. -/
inductive Closed (p : Char → Prop) : List Char → Prop
  | nil : Closed p []
  | char {c : Char} {rest : List Char} (hbrace : c ≠ '\x7b') (hc : p c) (tail : Closed p rest) :
      Closed p (c :: rest)
  | span {inner rest : List Char} (hinner : Matched inner) (tail : Closed p rest) :
      Closed p ('\x7b' :: (inner ++ '\x7d' :: rest))

/-- The values that can stand between quotes of a kind. -/
def Quote.Admits : Quote → List Char → Prop
  | .double, text => Closed (· ≠ '"') text
  | .single, text => Closed (· ≠ '\'') text
  | .brace, text => Matched text
  | .unquoted, text =>
      text ≠ [] ∧ (∀ c ∈ text, isBlank c = false ∧ c ≠ '>') ∧
        (∀ c ∈ text.head?, c ≠ '"' ∧ c ≠ '\'' ∧ c ≠ '\x7b') ∧ text.getLast? ≠ some '/'

/-- The attribute can be read again: its name is divided as names are, and it has a name that ends
where it should, or else it is a value in braces alone. -/
structure PlainAttribute.WellFormed (affix : Bool) (a : PlainAttribute) : Prop where
  divided : a.name = if affix then .split a.name.full else { base := a.name.full }
  part : ∀ c ∈ a.name.full.toList, isAttributePart c = true
  start : a.name.full.toList.head? ≠ some '\x7b'
  anonymous : a.name.full = "" → ∃ text, a.value = some (text, .brace)
  value : ∀ text quote, a.value = some (text, quote) → quote.Admits text.toList

/-- The element can be read again, its children apart. -/
structure Tag.WellFormed (affix : Bool) (t : Tag) : Prop where
  name : ∃ c rest, t.name.toList = c :: rest ∧ isTagStart c = true ∧
    ∀ x ∈ rest, isTagPart x = true
  empty : t.empty = (t.selfClosing || isVoid t.name)
  attributes : ∀ a ∈ t.attributes, a.WellFormed affix
  raw : t.holdsRaw = true → ∃ body, t.raw = some body ∧ Unclosed t.name body.toList
  plain : t.holdsRaw = false → t.raw = none

mutual

/-- The tree can be read again from what is written. -/
def Tree.WellFormed (affix : Bool) : Tree → Prop
  | .text text => text ≠ "" ∧ Closed (· ≠ '<') text.toList
  | .comment content => ¬ "-->".toList <:+: content.toList
  | .element tag children =>
      tag.WellFormed affix ∧ (tag.empty = true ∨ tag.holdsRaw = true → children = []) ∧
        TreesWellFormed affix children

/-- The trees can be read again, and no text stands beside another one. -/
def TreesWellFormed (affix : Bool) : List Tree → Prop
  | [] => True
  | t :: rest =>
      t.WellFormed affix ∧ ¬ (t.isText = true ∧ rest.head?.any Tree.isText = true) ∧
        TreesWellFormed affix rest

end

/-- A value as it is written, with its quotes. -/
def Quote.chars (quote : Quote) (text : List Char) : List Char :=
  match quote with
  | .double => '"' :: text ++ ['"']
  | .single => '\'' :: text ++ ['\'']
  | .brace => '\x7b' :: text ++ ['\x7d']
  | .unquoted => text

/-- An attribute as it is written. -/
def PlainAttribute.chars (a : PlainAttribute) : List Char :=
  match a.value with
  | none => a.name.full.toList
  | some (text, quote) =>
      (if a.name.full.isEmpty then [] else a.name.full.toList ++ ['=']) ++ quote.chars text.toList

/-- The end of an opening tag. -/
def Tag.ending (t : Tag) : List Char := if t.selfClosing then ['/', '>'] else ['>']

/-- The inside of an opening tag after its name, and its end. -/
def Tag.inside (t : Tag) : List Char :=
  t.attributes.flatMap (fun a => ' ' :: a.chars) ++ t.ending

/-- An opening tag as it is written. -/
def Tag.opening (t : Tag) : List Char := '<' :: (t.name.toList ++ t.inside)

/-- A closing tag as it is written. -/
def Tag.closing (t : Tag) : List Char := '<' :: '/' :: (t.name.toList ++ ['>'])

mutual

/-- A tree as it is written. -/
def Tree.chars : Tree → List Char
  | .text text => text.toList
  | .comment content => ['<', '!', '-', '-'] ++ (content.toList ++ ['-', '-', '>'])
  | .element tag children =>
      tag.opening ++
        if tag.selfClosing || tag.empty then []
        else (tag.raw.getD "").toList ++ (treesChars children ++ tag.closing)

/-- Some trees as they are written. -/
def treesChars : List Tree → List Char
  | [] => []
  | t :: rest => t.chars ++ treesChars rest

end

/-- The value of an attribute in a document. -/
def PlainAttribute.content (a : PlainAttribute) : Value :=
  match a.value with
  | none => .empty
  | some (text, quote) => .text text quote

/-- The element shows a tag. -/
structure Element.Shows (e : Element) (t : Tag) : Prop where
  name : e.name = t.name
  empty : e.empty = t.empty
  selfClosing : e.selfClosing = t.selfClosing
  attributes : e.attributes.map (fun a => (a.name, a.value)) =
    t.attributes.map fun a => (a.name, a.content)
  raw : e.raw = t.raw

mutual

/-- A node shows a tree, and the numbers of the nodes that show it are of some kind. -/
def Document.Holds (d : Document) (p : Nat → Prop) : Nat → Tree → Prop
  | id, .text text => p id ∧ (d.node id).content = .text (.raw text)
  | id, .comment content => p id ∧ (d.node id).content = .comment content
  | id, .element tag children =>
      p id ∧ (∃ e, (d.node id).content = .element e ∧ e.Shows tag) ∧
        (d.node id).params.fragment = none ∧ d.HoldsAll p (d.children id) children

/-- Some nodes show some trees in order. -/
def Document.HoldsAll (d : Document) (p : Nat → Prop) : List Nat → List Tree → Prop
  | [], [] => True
  | id :: ids, t :: rest => d.Holds p id t ∧ d.HoldsAll p ids rest
  | _, _ => False

end

/-- The trees below the root of a document. -/
def Document.Shows (d : Document) (trees : List Tree) : Prop :=
  d.HoldsAll (· < d.size) (d.children 0) trees

mutual

/-- The number of levels of a tree. -/
def Tree.depth : Tree → Nat
  | .element _ children => treesDepth children + 1
  | _ => 1

/-- The greatest number of levels among some trees. -/
def treesDepth : List Tree → Nat
  | [] => 0
  | t :: rest => max t.depth (treesDepth rest)

end

/-- Attributes are equal if names and contents are. -/
theorem PlainAttribute.ext_content {a b : PlainAttribute}
    (h : (a.name, a.content) = (b.name, b.content)) : a = b := by
  obtain ⟨hname, hcontent⟩ := Prod.mk.inj h
  obtain ⟨name, value⟩ := a
  obtain ⟨name', value'⟩ := b
  simp only at hname
  subst hname
  rcases value with _ | ⟨text, quote⟩ <;> rcases value' with _ | ⟨text', quote'⟩ <;>
    simp_all [PlainAttribute.content]

/-- An element shows one tag. -/
theorem Element.Shows.unique {e : Element} {t u : Tag} (ht : e.Shows t) (hu : e.Shows u) : t = u := by
  have hinjective : Function.Injective fun a : PlainAttribute => (a.name, a.content) :=
    fun _ _ => PlainAttribute.ext_content
  have hattributes := hinjective.list_map (ht.attributes.symm.trans hu.attributes)
  have hname := ht.name.symm.trans hu.name
  have hempty := ht.empty.symm.trans hu.empty
  have hself := ht.selfClosing.symm.trans hu.selfClosing
  have hraw := ht.raw.symm.trans hu.raw
  cases t
  cases u
  simp_all

mutual

/-- A node shows one tree. -/
theorem Document.Holds.unique {d : Document} {p : Nat → Prop} {id : Nat} {t u : Tree}
    (ht : d.Holds p id t) (hu : d.Holds p id u) : t = u := by
  match t, u with
  | .text a, .text b =>
      have hcontent := ht.2.symm.trans hu.2
      simp_all
  | .comment a, .comment b =>
      have hcontent := ht.2.symm.trans hu.2
      simp_all
  | .element tag children, .element tag' children' =>
      simp only [Document.Holds] at ht hu
      obtain ⟨-, ⟨e, he, hshows⟩, -, hall⟩ := ht
      obtain ⟨-, ⟨e', he', hshows'⟩, -, hall'⟩ := hu
      cases he.symm.trans he'
      rw [hshows.unique hshows', Document.HoldsAll.unique hall hall']
  | .text a, .comment b => exact absurd (ht.2.symm.trans hu.2) (by simp)
  | .comment a, .text b => exact absurd (ht.2.symm.trans hu.2) (by simp)
  | .text a, .element tag children =>
      simp only [Document.Holds] at ht hu
      obtain ⟨-, ⟨e, he, -⟩, -⟩ := hu
      exact absurd (ht.2.symm.trans he) (by simp)
  | .comment a, .element tag children =>
      simp only [Document.Holds] at ht hu
      obtain ⟨-, ⟨e, he, -⟩, -⟩ := hu
      exact absurd (ht.2.symm.trans he) (by simp)
  | .element tag children, .text b =>
      simp only [Document.Holds] at ht hu
      obtain ⟨-, ⟨e, he, -⟩, -⟩ := ht
      exact absurd (hu.2.symm.trans he) (by simp)
  | .element tag children, .comment b =>
      simp only [Document.Holds] at ht hu
      obtain ⟨-, ⟨e, he, -⟩, -⟩ := ht
      exact absurd (hu.2.symm.trans he) (by simp)

/-- Nodes hold no more than one list of trees. -/
theorem Document.HoldsAll.unique {d : Document} {p : Nat → Prop} {ids : List Nat}
    {ts us : List Tree} (ht : d.HoldsAll p ids ts) (hu : d.HoldsAll p ids us) : ts = us := by
  match ids, ts, us with
  | [], [], [] => rfl
  | id :: ids, t :: ts, u :: us =>
      simp only [Document.HoldsAll] at ht hu
      rw [Document.Holds.unique ht.1 hu.1, Document.HoldsAll.unique ht.2 hu.2]
  | [], _ :: _, _ => simp [Document.HoldsAll] at ht
  | [], [], _ :: _ => simp [Document.HoldsAll] at hu
  | _ :: _, [], _ => simp [Document.HoldsAll] at ht
  | _ :: _, _ :: _, [] => simp [Document.HoldsAll] at hu

end

/-- A node that holds a tree is one of those it may be. -/
theorem Document.Holds.valid {d : Document} {p : Nat → Prop} {id : Nat} {t : Tree}
    (h : d.Holds p id t) : p id := by
  cases t <;> simp only [Document.Holds] at h <;> exact h.1

mutual

/-- On the way down to a node no number comes twice, so that a tree has no more levels than the
document has nodes. -/
theorem Document.Holds.depth_le {d : Document} {id : Nat} {t : Tree}
    (h : d.Holds (· < d.size) id t) (above : Finset Nat)
    (habove : ∀ x ∈ above, x < d.size ∧ ∃ u, d.Holds (· < d.size) x u ∧ t.depth < u.depth) :
    t.depth + above.card ≤ d.size := by
  have hnew : id ∉ above := by
    intro hmem
    obtain ⟨-, u, hu, hlt⟩ := habove id hmem
    rw [hu.unique h] at hlt
    exact Nat.lt_irrefl _ hlt
  have hcard : (insert id above).card = above.card + 1 := Finset.card_insert_of_notMem hnew
  have hbound : (insert id above).card ≤ d.size := by
    rw [← Finset.card_range d.size]
    apply Finset.card_le_card
    intro x hx
    rcases Finset.mem_insert.mp hx with rfl | hx
    · exact Finset.mem_range.mpr h.valid
    · exact Finset.mem_range.mpr (habove x hx).1
  match t with
  | .text text | .comment content =>
      simp only [Tree.depth]
      omega
  | .element tag children =>
      have hall := h
      simp only [Document.Holds] at hall
      have hchildren := Document.HoldsAll.depth_le hall.2.2.2 (insert id above) (by
        intro child hchild
        simp only [Finset.mem_insert]
        rintro x (rfl | hx)
        · exact ⟨h.valid, _, h, by simp only [Tree.depth]; omega⟩
        · obtain ⟨hsize, u, hu, hlt⟩ := habove x hx
          exact ⟨hsize, u, hu, by simp only [Tree.depth] at hlt; omega⟩) hbound
      simp only [Tree.depth]
      omega

/-- Trees that a document holds are no deeper than it is large. -/
theorem Document.HoldsAll.depth_le {d : Document} {ids : List Nat} {ts : List Tree}
    (h : d.HoldsAll (· < d.size) ids ts) (above : Finset Nat)
    (habove : ∀ depth ≤ treesDepth ts, ∀ x ∈ above,
      x < d.size ∧ ∃ u, d.Holds (· < d.size) x u ∧ depth < u.depth)
    (hbound : above.card ≤ d.size) : treesDepth ts + above.card ≤ d.size := by
  match ids, ts with
  | [], [] =>
      simp only [treesDepth]
      omega
  | id :: ids, t :: ts =>
      simp only [Document.HoldsAll] at h
      have hfirst := Document.Holds.depth_le h.1 above (habove t.depth (by simp [treesDepth]))
      have hrest := Document.HoldsAll.depth_le h.2 above
        (fun depth hdepth => habove depth (by simp [treesDepth, hdepth])) hbound
      simp only [treesDepth]
      omega
  | [], _ :: _ => simp [Document.HoldsAll] at h
  | _ :: _, [] => simp [Document.HoldsAll] at h

end

/-- A quoted text is written between its quotes. -/
theorem toList_around (quote : Quote) (text : String) :
    (quote.around text).toList = quote.chars text.toList := by
  cases quote <;> simp [Quote.around, Quote.chars]

/-- An attribute is printed as the plain one it stands for. -/
theorem toList_printAttribute {a : Attribute} {b : PlainAttribute}
    (h : (a.name, a.value) = (b.name, b.content)) : a.print.toList = b.chars := by
  obtain ⟨hname, hvalue⟩ := Prod.mk.inj h
  obtain ⟨name, value⟩ := b
  rcases value with _ | ⟨text, quote⟩
  · simp_all [Attribute.print, Attribute.fullName, PlainAttribute.chars, PlainAttribute.content]
  · simp only [PlainAttribute.content] at hname hvalue
    simp only [Attribute.print, Attribute.fullName, hname, hvalue, PlainAttribute.chars, printValue]
    split <;> simp [toList_around, *]

/-- An element is printed with the opening tag it shows. -/
theorem Element.Shows.toList_printOpening {e : Element} {t : Tag} (h : e.Shows t) :
    (printOpening e none).toList = t.opening := by
  have hattributes : ∀ (as : List Attribute) (bs : List PlainAttribute),
      as.map (fun a => (a.name, a.value)) = bs.map (fun b => (b.name, b.content)) →
      (String.join (as.map (" " ++ ·.print))).toList = bs.flatMap fun b => ' ' :: b.chars := by
    intro as
    induction as with
    | nil => simp_all
    | cons a as ih =>
        intro bs hbs
        match bs with
        | [] => simp at hbs
        | b :: bs =>
            rw [List.map_cons, List.map_cons, List.cons.injEq] at hbs
            simp [toList_printAttribute hbs.1, ← ih bs hbs.2]
  have hjoined := hattributes e.attributes t.attributes h.attributes
  simp only [printOpening, Tag.opening, Tag.inside, Tag.ending, String.toList_append, hjoined, h.name,
    h.selfClosing]
  split <;> simp

mutual

/-- A node is printed as the tree that it shows. -/
theorem Document.Holds.toList_printNode {d : Document} {p : Nat → Prop} {levels id : Nat} {t : Tree}
    (h : d.Holds p id t) (hlevels : t.depth ≤ levels) :
    (d.printNode levels id).toList = t.chars := by
  match t, levels with
  | .text text, levels + 1 => simp [Document.printNode, h.2, Tree.chars]
  | .comment content, levels + 1 => simp [Document.printNode, h.2, Tree.chars]
  | .element tag children, levels + 1 =>
      simp only [Document.Holds] at h
      obtain ⟨-, ⟨e, he, hshows⟩, hfragment, hall⟩ := h
      simp only [Tree.depth, Nat.add_le_add_iff_right] at hlevels
      have hchildren := hall.flatMap_printNode hlevels
      simp only [Document.children] at hchildren
      simp only [Document.printNode, he, hfragment, Tree.chars, hshows.selfClosing, hshows.empty,
        hshows.raw, hshows.name]
      split
      · simp [hshows.toList_printOpening]
      · simp [hshows.toList_printOpening, List.flatMap_map, hchildren, Tag.closing]
  | .text _, 0 | .comment _, 0 | .element _ _, 0 => simp [Tree.depth] at hlevels

/-- The nodes of a list are printed as the trees they hold. -/
theorem Document.HoldsAll.flatMap_printNode {d : Document} {p : Nat → Prop} {levels : Nat}
    {ids : List Nat} {ts : List Tree} (h : d.HoldsAll p ids ts) (hlevels : treesDepth ts ≤ levels) :
    (ids.flatMap fun id => (d.printNode levels id).toList) = treesChars ts := by
  match ids, ts with
  | [], [] => rfl
  | id :: ids, t :: ts =>
      simp only [Document.HoldsAll] at h
      simp only [treesDepth, Nat.max_le] at hlevels
      rw [List.flatMap_cons, treesChars, h.1.toList_printNode hlevels.1,
        Document.HoldsAll.flatMap_printNode h.2 hlevels.2]
  | [], _ :: _ => simp [Document.HoldsAll] at h
  | _ :: _, [] => simp [Document.HoldsAll] at h

end

/-- A document is printed as the trees that it shows. -/
theorem Document.Shows.toList_print {d : Document} {trees : List Tree} (h : d.Shows trees) :
    d.print.toList = treesChars trees := by
  have hdepth := Document.HoldsAll.depth_le h ∅ (by simp) (by simp)
  rw [Document.print, String.toList_join, List.flatMap_map]
  exact Document.HoldsAll.flatMap_printNode h (by simpa using hdepth)

end Stencil.Markup
