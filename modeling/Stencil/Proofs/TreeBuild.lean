import Stencil.Markup.Build
import Stencil.Proofs.Nodes
import Stencil.Proofs.TreeScan

/-!
# Building trees from their tokens

The tokens of a tree, taken in one after another, add nodes that show the tree below the innermost
open element and leave everything else alone.  The tree has to be `Sound`, which says nothing of how
it is written, and `Kept`: its texts and comments are such as the settings leave them.
-/

namespace Stencil.Markup

open Stencil.Text

/-- The tag is of the form that an opening tag and what stands behind it give it. -/
structure Tag.Sound (affix : Bool) (t : Tag) : Prop where
  empty : t.empty = (t.selfClosing || isVoid t.name)
  divided : ∀ a ∈ t.attributes,
    a.name = if affix then .split a.name.full else { base := a.name.full }
  raw : t.holdsRaw = true → ∃ body, t.raw = some body
  plain : t.holdsRaw = false → t.raw = none

mutual

/-- The tags of the tree are sound, and there is nothing below those that are empty or raw. -/
def Tree.Sound (affix : Bool) : Tree → Prop
  | .text _ | .comment _ => True
  | .element tag children =>
      tag.Sound affix ∧ (tag.empty = true ∨ tag.holdsRaw = true → children = []) ∧
        TreesSound affix children

/-- The trees are sound, and no text stands beside another one. -/
def TreesSound (affix : Bool) : List Tree → Prop
  | [] => True
  | t :: rest =>
      t.Sound affix ∧ ¬ (t.isText = true ∧ rest.head?.any Tree.isText = true) ∧
        TreesSound affix rest

end

mutual

/-- The settings leave the texts and comments of the tree as they are; `pre` if an element around it
is preformatted. -/
def Tree.Kept (s : Settings) (pre : Bool) : Tree → Prop
  | .text text => (s.keepBlanks || pre) = true ∨ collapse text = text
  | .comment _ => s.comments = true
  | .element tag children => TreesKept s (isPreformatted tag.name || pre) children

/-- The settings leave the texts and comments of the trees as they are. -/
def TreesKept (s : Settings) (pre : Bool) : List Tree → Prop
  | [] => True
  | t :: rest => t.Kept s pre ∧ TreesKept s pre rest

end

/-- A scanned tag is sound. -/
theorem Tag.Scanned.sound {affix : Bool} {t : Tag} (h : t.Scanned affix) : t.Sound affix where
  empty := h.empty
  divided := h.divided
  raw hraw := by
    obtain ⟨body, hbody, -⟩ := h.raw hraw
    exact ⟨body, hbody⟩
  plain := h.plain

mutual

/-- A scanned tree is sound. -/
theorem Tree.Scanned.sound {affix : Bool} {t : Tree} (h : t.Scanned affix) : t.Sound affix := by
  match t with
  | .text _ | .comment _ => trivial
  | .element tag children =>
      simp only [Tree.Scanned] at h
      exact ⟨h.1.sound, h.2.1, TreesScanned.sound h.2.2⟩

/-- A list of scanned trees is sound. -/
theorem TreesScanned.sound {affix : Bool} {ts : List Tree} (h : TreesScanned affix ts) :
    TreesSound affix ts := by
  match ts with
  | [] => trivial
  | t :: more =>
      simp only [TreesScanned] at h
      exact ⟨h.1.sound, h.2.1, TreesScanned.sound h.2.2⟩

end

/-- A list of well-formed trees is sound. -/
theorem TreesWellFormed.sound {affix : Bool} {ts : List Tree} (h : TreesWellFormed affix ts) :
    TreesSound affix ts :=
  h.scanned.sound

mutual

/-- With blanks and comments kept, everything of a tree is kept. -/
theorem Tree.kept_of_keepBlanks {s : Settings} (hblanks : s.keepBlanks = true)
    (hcomments : s.comments = true) (t : Tree) (pre : Bool) : t.Kept s pre := by
  match t with
  | .text _ => exact .inl (by rw [hblanks]; rfl)
  | .comment _ => exact hcomments
  | .element _ children => exact treesKept_of_keepBlanks hblanks hcomments children _

/-- If blanks and comments are kept, all trees are. -/
theorem treesKept_of_keepBlanks {s : Settings} (hblanks : s.keepBlanks = true)
    (hcomments : s.comments = true) (ts : List Tree) (pre : Bool) : TreesKept s pre ts := by
  match ts with
  | [] => trivial
  | t :: more =>
      exact ⟨t.kept_of_keepBlanks hblanks hcomments pre,
        treesKept_of_keepBlanks hblanks hcomments more pre⟩

end

mutual

/-- What a node shows is not changed by changing other nodes. -/
theorem Document.Holds.frame {d d' : Document} {p q : Nat → Prop} {id : Nat} {t : Tree}
    (h : d.Holds p id t) (halike : ∀ i, p i → (d'.node i).Alike (d.node i)) (hpq : ∀ i, p i → q i) :
    d'.Holds q id t := by
  match t with
  | .text text =>
      exact ⟨hpq id h.1, (halike id h.1).content.trans h.2⟩
  | .comment content =>
      exact ⟨hpq id h.1, (halike id h.1).content.trans h.2⟩
  | .element tag children =>
      simp only [Document.Holds] at h ⊢
      obtain ⟨hid, ⟨e, he, hshows⟩, hfragment, hall⟩ := h
      have hsame := halike id hid
      refine ⟨hpq id hid, ⟨e, hsame.content.trans he, hshows⟩, by rw [hsame.params, hfragment], ?_⟩
      have hchildren : d'.children id = d.children id := hsame.children
      rw [hchildren]
      exact hall.frame halike hpq

/-- Nodes that are alike hold the same trees. -/
theorem Document.HoldsAll.frame {d d' : Document} {p q : Nat → Prop} {ids : List Nat}
    {ts : List Tree} (h : d.HoldsAll p ids ts) (halike : ∀ i, p i → (d'.node i).Alike (d.node i))
    (hpq : ∀ i, p i → q i) : d'.HoldsAll q ids ts := by
  match ids, ts with
  | [], [] => trivial
  | id :: ids, t :: ts =>
      simp only [Document.HoldsAll] at h ⊢
      exact ⟨h.1.frame halike hpq, Document.HoldsAll.frame h.2 halike hpq⟩
  | [], _ :: _ => simp [Document.HoldsAll] at h
  | _ :: _, [] => simp [Document.HoldsAll] at h

end

/-- Nodes of two lists hold the trees of both. -/
theorem Document.HoldsAll.append {d : Document} {p : Nat → Prop} {ids ids' : List Nat}
    {ts us : List Tree} (h : d.HoldsAll p ids ts) (h' : d.HoldsAll p ids' us) :
    d.HoldsAll p (ids ++ ids') (ts ++ us) := by
  match ids, ts with
  | [], [] => exact h'
  | id :: ids, t :: ts =>
      simp only [Document.HoldsAll, List.cons_append] at h ⊢
      exact ⟨h.1, Document.HoldsAll.append h.2 h'⟩
  | [], _ :: _ => simp [Document.HoldsAll] at h
  | _ :: _, [] => simp [Document.HoldsAll] at h

/-- One builder becomes another by adding trees to the innermost open element. -/
structure Builder.Adds (b b' : Builder) (ts : List Tree) : Prop where
  stack : b'.stack = b.stack
  diagnostics : b'.diagnostics = b.diagnostics
  produced : b.produced = true ∨ ts ≠ [] → b'.produced = true
  size : b.document.size ≤ b'.document.size
  alike : ∀ i < b.document.size, i ≠ b.parent → (b'.document.node i).Alike (b.document.node i)
  parent : (b'.document.node b.parent).content = (b.document.node b.parent).content ∧
    (b'.document.node b.parent).params = (b.document.node b.parent).params
  added : ∃ ids, b'.document.children b.parent = b.document.children b.parent ++ ids ∧
    b'.document.HoldsAll (fun i => b.document.size ≤ i ∧ i < b'.document.size) ids ts

/-- A builder adds no trees to itself. -/
theorem Builder.Adds.refl (b : Builder) : b.Adds b [] :=
  ⟨rfl, rfl, fun h => h.resolve_right (by simp), Nat.le_refl _, fun _ _ _ => .refl _, ⟨rfl, rfl⟩,
    [], by simp, trivial⟩

/-- Trees are added one after another. -/
theorem Builder.Adds.trans {a b c : Builder} {ts us : List Tree} (h : a.Adds b ts)
    (h' : b.Adds c us) (hparent : a.parent < a.document.size) : a.Adds c (ts ++ us) := by
  have hsame : b.parent = a.parent := by rw [Builder.parent, Builder.parent, h.stack]
  obtain ⟨ids, hids, hholds⟩ := h.added
  obtain ⟨ids', hids', hholds'⟩ := h'.added
  have hsize := h.size
  have hsize' := h'.size
  rw [hsame] at hids'
  refine ⟨h'.stack.trans h.stack, h'.diagnostics.trans h.diagnostics, ?_, hsize.trans hsize', ?_, ?_,
    ids ++ ids', ?_, ?_⟩
  · rintro (hproduced | hne)
    · exact h'.produced (.inl (h.produced (.inl hproduced)))
    · by_cases hts : ts = []
      · exact h'.produced (.inr (by simpa [hts] using hne))
      · exact h'.produced (.inl (h.produced (.inr hts)))
  · intro i hi hne
    exact (h'.alike i (by omega) (by rw [hsame]; exact hne)).trans (h.alike i hi hne)
  · have hparent' := h'.parent
    rw [hsame] at hparent'
    exact ⟨hparent'.1.trans h.parent.1, hparent'.2.trans h.parent.2⟩
  · rw [hids', hids, List.append_assoc]
  · have hold : c.document.HoldsAll (fun i => a.document.size ≤ i ∧ i < c.document.size) ids ts :=
      hholds.frame (fun i hi => h'.alike i hi.2 (by rw [hsame]; omega)) fun i hi => ⟨hi.1, by omega⟩
    have hnew : c.document.HoldsAll (fun i => a.document.size ≤ i ∧ i < c.document.size) ids' us :=
      hholds'.frame (fun i _ => .refl _) fun i hi => ⟨by omega, hi.2⟩
    exact hold.append hnew

/-- A text behind a tree that is none is not joined to anything. -/
theorem Builder.Adds.lastText?_eq {b b' : Builder} {t : Tree} (h : b.Adds b' [t])
    (htext : t.isText = false) : b'.lastText? = none := by
  have hsame : b'.parent = b.parent := by rw [Builder.parent, Builder.parent, h.stack]
  obtain ⟨ids, hids, hholds⟩ := h.added
  match ids with
  | [] => simp [Document.HoldsAll] at hholds
  | _ :: _ :: _ => simp [Document.HoldsAll] at hholds
  | [id] =>
      simp only [Document.HoldsAll, and_true] at hholds
      simp only [Builder.lastText?, hsame, hids, List.getLast?_concat]
      match t with
      | .comment content => rw [hholds.2]
      | .element tag children =>
          simp only [Document.Holds] at hholds
          obtain ⟨-, ⟨e, he, -⟩, -⟩ := hholds
          rw [he]

/-- A node that holds a tree is added with it. -/
theorem Builder.adds_add (b : Builder) (n : Node) (hparent : b.parent < b.document.size) {t : Tree}
    (hholds : (b.document.append b.parent n).Holds
      (fun i => b.document.size ≤ i ∧ i < b.document.size + 1) b.document.size t) :
    b.Adds (b.add n) [t] := by
  have hnode := Document.node_append_parent hparent n
  refine ⟨rfl, rfl, fun _ => rfl, ?_, ?_, ?_, [b.document.size], ?_, ?_⟩
  · simp [Builder.add]
  · intro i hi hne
    rw [Builder.add, Document.node_append_of_ne n hi hne]
    exact .refl _
  · simp [Builder.add, hnode]
  · show (b.document.append b.parent n).children b.parent = _
    rw [Document.children, hnode]
  · simpa [Builder.add, Document.HoldsAll] using hholds

/-- A text that is tidy or kept as it is, is added as one. -/
theorem adds_text {c : Context} (b : Builder) {text : String}
    (htext : (c.settings.keepBlanks || b.isPreformatted) = true ∨ collapse text = text)
    (hparent : b.parent < b.document.size) (hlast : b.lastText? = none) (start stop : Nat) :
    b.Adds (b.addText c text start stop) [.text text] := by
  have htidy : (if c.settings.keepBlanks || b.isPreformatted then id else collapse) text = text := by
    split
    · rfl
    · next hno => exact htext.resolve_left hno
  have hadd : b.addText c text start stop =
      b.add { Node.ofText text with position := c.position start stop } := by
    simp only [Builder.addText, hlast, htidy]
  rw [hadd]
  apply b.adds_add _ hparent
  simp [Document.Holds, Document.node_append_self hparent, Node.ofText]

/-- A comment that is kept is added as one. -/
theorem adds_comment {c : Context} (hcomments : c.settings.comments = true) (b : Builder)
    (hparent : b.parent < b.document.size) (content : String) (start stop : Nat) :
    b.Adds (b.addComment c content start stop) [.comment content] := by
  rw [Builder.addComment, if_pos hcomments]
  apply b.adds_add _ hparent
  simp [Document.Holds, Document.node_append_self hparent, Node.ofComment]

/-- The attributes of the tokens of an opening tag. -/
theorem map_attributeOf {c : Context} {attributes : List PlainAttribute}
    (h : ∀ a ∈ attributes,
      a.name = if c.settings.affix then .split a.name.full else { base := a.name.full })
    (offset : Nat) :
    ((attributeTokens offset attributes).map (Builder.attributeOf c)).map
      (fun a => (a.name, a.value)) = attributes.map fun a => (a.name, a.content) := by
  induction attributes generalizing offset with
  | nil => rfl
  | cons a more ih =>
      have hdivided := h a (by simp)
      have hmore := ih (fun b hb => h b (by simp [hb])) (offset + 1 + byteSize a.chars)
      rw [attributeTokens, List.map_cons, List.map_cons, hmore, List.map_cons]
      congr 1
      simp only [Builder.attributeOf, PlainAttribute.token, PlainAttribute.content, Prod.mk.injEq]
      exact ⟨hdivided.symm, by cases a.value <;> rfl⟩

/-- The element of an opening tag, before anything inside it is read. -/
def Tag.element (c : Context) (offset : Nat) (t : Tag) : Element :=
  { name := t.name, empty := t.selfClosing || isVoid t.name, selfClosing := t.selfClosing,
    attributes := (attributeTokens (offset + 1 + byteSize t.name.toList) t.attributes).map
      (Builder.attributeOf c) }

/-- The element of a sound tag shows that tag. -/
theorem Tag.Sound.element_shows {c : Context} {t : Tag} (h : t.Sound c.settings.affix)
    (offset : Nat) : ({ t.element c offset with raw := t.raw } : Element).Shows t :=
  ⟨rfl, h.empty.symm, rfl, map_attributeOf h.divided _, rfl⟩

/-- A closing tag that fits the innermost open element closes it. -/
theorem closeElement_of_closes {c : Context} {b : Builder} {id : Nat} {outer : List Nat}
    {name : String} (hstack : b.stack = id :: outer) (hcloses : closes (b.nameOf id) name = true)
    (start stop : Nat) :
    b.closeElement c name start stop =
      { b with
        document := b.document.update id fun n =>
          { n with position := n.position.map (Builder.endAt c stop) }
        stack := outer } := by
  simp [Builder.closeElement, hstack, hcloses, Builder.reportUnclosed]

/-- An element is added once it is closed: of the nodes that were there, only the innermost open
element has changed, and below the new node stands what the tree asks for. -/
theorem Builder.adds_closed {c : Context} (b b' : Builder) (n : Node) {tag : Tag}
    {children : List Tree} {e : Element} (hparent : b.parent < b.document.size)
    (hstack : b'.stack = b.document.size :: b.stack) (hdiagnostics : b'.diagnostics = b.diagnostics)
    (hproduced : b'.produced = true) (hsize : b.document.size < b'.document.size)
    (halike : ∀ i < b.document.size,
      (b'.document.node i).Alike ((b.document.append b.parent n).node i))
    (hcontent : (b'.document.node b.document.size).content = .element e) (hshows : e.Shows tag)
    (hfragment : (b'.document.node b.document.size).params.fragment = none)
    (hall : b'.document.HoldsAll
      (fun i => b.document.size < i ∧ i < b'.document.size)
      (b'.document.children b.document.size) children) (start stop : Nat) :
    b.Adds (b'.closeElement c tag.name start stop) [.element tag children] := by
  have hname : b'.nameOf b.document.size = tag.name := by
    simp [Builder.nameOf, Node.element?, hcontent, hshows.name]
  rw [closeElement_of_closes hstack (by simp [closes, hname])]
  have hclosed : ∀ i, ((b'.document.update b.document.size fun n =>
      { n with position := n.position.map (Builder.endAt c stop) }).node i).Alike
        (b'.document.node i) := by
    intro i
    rw [Document.node_update hsize]
    split
    · exact ⟨rfl, rfl, rfl, rfl⟩
    · exact .refl _
  have hnode := Document.node_append_parent hparent n
  have hbefore := (hclosed b.parent).trans (halike b.parent hparent)
  refine ⟨rfl, hdiagnostics, fun _ => hproduced, ?_, ?_, ?_, [b.document.size], ?_, ?_⟩
  · simp only [Document.size_update]
    omega
  · intro i hi hne
    have hsame := (hclosed i).trans (halike i hi)
    rwa [Document.node_append_of_ne n hi hne] at hsame
  · rw [hnode] at hbefore
    exact ⟨hbefore.content, hbefore.params⟩
  · have hchildren := hbefore.children
    rwa [hnode] at hchildren
  · have hnew := hclosed b.document.size
    refine ⟨?_, trivial⟩
    simp only [Document.Holds]
    refine ⟨⟨Nat.le_refl _, by simpa using hsize⟩, ⟨e, hnew.content.trans hcontent, hshows⟩, ?_, ?_⟩
    · rw [hnew.params, hfragment]
    · have hchildren := hnew.children
      simp only [Document.children] at hall ⊢
      rw [hchildren]
      exact hall.frame (fun i _ => hclosed i) fun i hi => ⟨Nat.le_of_lt hi.1, by simpa using hi.2⟩

/-- The builder inside an element that has just been opened. -/
def Builder.inside (b : Builder) (n : Node) : Builder :=
  { b.add n with stack := b.document.size :: b.stack }

/-- A node just opened has no last text. -/
theorem Builder.lastText?_inside {b : Builder} (hparent : b.parent < b.document.size) {n : Node}
    (h : n.children = []) : (b.inside n).lastText? = none := by
  have hchildren : (b.inside n).document.children (b.inside n).parent = [] := by
    show ((b.document.append b.parent n).node b.document.size).children = []
    rw [Document.node_append_self hparent, h]
  rw [Builder.lastText?, hchildren]
  rfl

/-- A node that holds an element and nothing else. -/
structure Node.Opens (n : Node) (e : Element) : Prop where
  content : n.content = .element e
  fragment : n.params.fragment = none
  children : n.children = []

/-- An element with raw content is added. -/
theorem Builder.adds_raw {c : Context} {b : Builder} {n : Node} {e : Element} {tag : Tag}
    {body : String} (hparent : b.parent < b.document.size) (hn : n.Opens e)
    (hshows : ({ e with raw := some body } : Element).Shows tag) (raw close : Nat × Nat) :
    b.Adds (((b.inside n).step c ⟨.raw body, raw.1, raw.2⟩).step c
      ⟨.closing tag.name, close.1, close.2⟩) [.element tag []] := by
  have hsize : b.document.size < (b.document.append b.parent n).size := by simp
  have hnode := Document.node_update_self hsize (Node.mapElement fun e => { e with raw := some body })
  rw [Document.node_append_self hparent, Node.mapElement, hn.content] at hnode
  refine b.adds_closed { b.inside n with
      document := (b.document.append b.parent n).update b.document.size
        (Node.mapElement fun e => { e with raw := some body }) } n
    hparent rfl rfl rfl (by simp) ?_ ?_ hshows ?_ ?_ _ _
  · intro i hi
    rw [Document.node_update_of_ne hsize _ (Nat.ne_of_lt hi)]
    exact .refl _
  · rw [hnode]
  · rw [hnode, hn.fragment]
  · rw [Document.children, hnode, hn.children]
    trivial

/-- An element is added with the trees that were added inside it. -/
theorem Builder.adds_children {c : Context} {b b' : Builder} {n : Node} {e : Element} {tag : Tag}
    {children : List Tree} (hparent : b.parent < b.document.size) (hn : n.Opens e)
    (hshows : e.Shows tag) (hinside : (b.inside n).Adds b' children) (close : Nat × Nat) :
    b.Adds (b'.step c ⟨.closing tag.name, close.1, close.2⟩) [.element tag children] := by
  have hnew := Document.node_append_self hparent n
  have hdocument : (b.inside n).document = b.document.append b.parent n := rfl
  have hid : (b.inside n).parent = b.document.size := rfl
  have hnode := hinside.parent
  have hsize := hinside.size
  have halike := hinside.alike
  obtain ⟨ids, hids, hholds⟩ := hinside.added
  rw [hdocument, hid, hnew] at hnode
  rw [hdocument, hid, Document.children, Document.children, hnew, hn.children, List.nil_append] at hids
  simp only [hdocument, hid, Document.size_append] at hsize halike hholds
  refine b.adds_closed b' n hparent hinside.stack hinside.diagnostics
    (hinside.produced (.inl rfl)) (by omega) (fun i hi => halike i (by omega) (by omega))
    (hnode.1.trans hn.content) hshows (by rw [hnode.2, hn.fragment]) ?_ _ _
  rw [Document.children, hids]
  exact hholds.frame (fun i _ => .refl _) fun i hi => ⟨by omega, hi.2⟩

/-- Inside an element that has just been opened, blanks are significant if they are in it or around
it. -/
theorem Builder.isPreformatted_inside {b : Builder} (hparent : b.parent < b.document.size)
    (hstack : ∀ id ∈ b.stack, id < b.document.size) {n : Node} {e : Element}
    (hn : n.content = .element e) :
    (b.inside n).isPreformatted = (Markup.isPreformatted e.name || b.isPreformatted) := by
  have hself : ((b.document.append b.parent n).node b.document.size).isPreformatted =
      Markup.isPreformatted e.name := by
    rw [Document.node_append_self hparent]
    simp [Node.isPreformatted, Node.element?, hn]
  have hothers : ∀ id ∈ b.stack, ((b.document.append b.parent n).node id).isPreformatted =
      (b.document.node id).isPreformatted := by
    intro id hid
    have hlt := hstack id hid
    by_cases heq : id = b.parent
    · rw [heq, Document.node_append_parent hparent]
      rfl
    · rw [Document.node_append_of_ne n hlt heq]
  simp only [Builder.isPreformatted, Builder.inside, Builder.add, List.any_cons, hself]
  congr 1
  rw [Bool.eq_iff_iff, List.any_eq_true, List.any_eq_true]
  constructor
  · rintro ⟨id, hid, hpre⟩
    exact ⟨id, hid, (hothers id hid) ▸ hpre⟩
  · rintro ⟨id, hid, hpre⟩
    exact ⟨id, hid, (hothers id hid).symm ▸ hpre⟩

/-- Adding trees opens and closes nothing. -/
theorem Builder.Adds.isPreformatted {b b' : Builder} {ts : List Tree} (h : b.Adds b' ts)
    (hstack : ∀ id ∈ b.stack, id < b.document.size) : b'.isPreformatted = b.isPreformatted := by
  have hsame : ∀ id ∈ b.stack,
      (b'.document.node id).isPreformatted = (b.document.node id).isPreformatted := by
    intro id hid
    have hcontent : (b'.document.node id).content = (b.document.node id).content := by
      by_cases heq : id = b.parent
      · rw [heq]
        exact h.parent.1
      · exact (h.alike id (hstack id hid) heq).content
    simp only [Node.isPreformatted, Node.element?, hcontent]
  rw [Builder.isPreformatted, Builder.isPreformatted, h.stack, Bool.eq_iff_iff, List.any_eq_true,
    List.any_eq_true]
  constructor
  · rintro ⟨id, hid, hpre⟩
    exact ⟨id, hid, (hsame id hid) ▸ hpre⟩
  · rintro ⟨id, hid, hpre⟩
    exact ⟨id, hid, (hsame id hid).symm ▸ hpre⟩

mutual

/-- The tokens of a tree add the tree. -/
theorem adds_tree {c : Context} (t : Tree) (h : t.Sound c.settings.affix) (offset : Nat)
    (b : Builder) (hkept : t.Kept c.settings b.isPreformatted)
    (hparent : b.parent < b.document.size) (hstack : ∀ id ∈ b.stack, id < b.document.size)
    (htext : t.isText = true → b.lastText? = none) :
    b.Adds ((t.tokens offset).foldl (Builder.step c) b) [t] := by
  match t with
  | .text text => exact adds_text b hkept hparent (htext rfl) _ _
  | .comment content => exact adds_comment hkept b hparent content _ _
  | .element tag children =>
      simp only [Tree.Sound] at h
      obtain ⟨htag, hleaf, hchildren⟩ := h
      have hempty : (tag.selfClosing || tag.empty) = (tag.selfClosing || isVoid tag.name) := by
        rw [htag.empty]
        cases tag.selfClosing <;> rfl
      have hshows := htag.element_shows offset
      have hopen : b.step c (tag.token offset) =
          let n := { Node.ofElement (tag.element c offset) with
            position := c.position offset (offset + byteSize tag.opening) }
          if tag.selfClosing || isVoid tag.name then b.add n else b.inside n := rfl
      simp only [Tree.tokens, List.foldl_cons, hopen, hempty]
      by_cases hvoid : (tag.selfClosing || isVoid tag.name) = true
      · -- an element without content is complete
        have hplain : tag.raw = none := by
          apply htag.plain
          rw [Bool.eq_false_iff]
          intro hraw
          simp only [Tag.holdsRaw, Bool.and_eq_true, Bool.not_eq_true'] at hraw
          rw [hraw.1, isVoid_of_isRawText hraw.2] at hvoid
          simp at hvoid
        have hnil : children = [] := hleaf (.inl (by rw [htag.empty, hvoid]))
        rw [if_pos hvoid, if_pos hvoid, hnil]
        rw [hplain] at hshows
        apply b.adds_add _ hparent
        simp only [Document.Holds, Document.children, Document.node_append_self hparent,
          Node.ofElement]
        exact ⟨⟨Nat.le_refl _, Nat.lt_succ_self _⟩, ⟨_, rfl, hshows⟩, trivial, trivial⟩
      · rw [if_neg hvoid, if_neg hvoid]
        by_cases hraw : tag.holdsRaw = true
        · obtain ⟨body, hbody⟩ := htag.raw hraw
          rw [hbody] at hshows
          rw [hleaf (.inr hraw), Tag.rawTokens, hbody]
          exact Builder.adds_raw hparent ⟨rfl, rfl, rfl⟩ hshows (_, _) (_, _)
        · have hplain := htag.plain (by simpa using hraw)
          rw [hplain] at hshows
          rw [Tag.rawTokens, hplain, List.nil_append, List.foldl_append]
          have hinside := adds_trees children hchildren
            (offset + byteSize tag.opening + byteSize (Option.getD none "").toList)
            (b.inside { Node.ofElement (tag.element c offset) with
              position := c.position offset (offset + byteSize tag.opening) })
            (by
              rw [Builder.isPreformatted_inside hparent hstack rfl]
              exact hkept)
            (by simp [Builder.parent, Builder.inside, Builder.add])
            (by
              simp only [Builder.inside, Builder.add, Document.size_append, List.forall_mem_cons]
              exact ⟨Nat.lt_succ_self _, fun id hid => Nat.lt_succ_of_lt (hstack id hid)⟩)
            (fun _ => Builder.lastText?_inside hparent rfl)
          exact Builder.adds_children hparent ⟨rfl, rfl, rfl⟩ hshows hinside (_, _)

/-- A run over the tokens of some trees adds those trees. -/
theorem adds_trees {c : Context} (ts : List Tree) (h : TreesSound c.settings.affix ts)
    (offset : Nat) (b : Builder) (hkept : TreesKept c.settings b.isPreformatted ts)
    (hparent : b.parent < b.document.size) (hstack : ∀ id ∈ b.stack, id < b.document.size)
    (htext : ts.head?.any Tree.isText = true → b.lastText? = none) :
    b.Adds ((treesTokens offset ts).foldl (Builder.step c) b) ts := by
  match ts with
  | [] => exact .refl b
  | t :: more =>
      simp only [TreesSound] at h
      obtain ⟨ht, hbeside, hmore⟩ := h
      have hfirst := adds_tree t ht offset b hkept.1 hparent hstack htext
      rw [treesTokens, List.foldl_append]
      generalize (t.tokens offset).foldl (Builder.step c) b = b' at hfirst
      have hsame : b'.parent = b.parent := by rw [Builder.parent, Builder.parent, hfirst.stack]
      have hsize := hfirst.size
      have hrest := adds_trees more hmore (offset + byteSize t.chars) b'
        (by rw [hfirst.isPreformatted hstack]; exact hkept.2) (by rw [hsame]; omega)
        (fun id hid => Nat.lt_of_lt_of_le (hstack id (hfirst.stack ▸ hid)) hsize)
        (fun hhead => hfirst.lastText?_eq (by
          rw [Bool.eq_false_iff]
          exact fun htext => hbeside ⟨htext, hhead⟩))
      exact hfirst.trans hrest hparent

end

end Stencil.Markup
