import Stencil.Proofs.RoundTrip
import Stencil.Proofs.Walk

/-!
# The order of a document under construction

While tokens are taken in, the numbers of the nodes are their order in the walk, and the open
elements stand at the right edge of the document, the innermost one last (`Builder.Ordered`).
`Builder.Moves` lists what a token can do, and each of it keeps the order (`Builder.Ordered.step`).
So text can only be joined to the node that was added last (`Builder.Ordered.size_of_lastText?`).
-/

namespace Stencil.Markup

open Stencil.Text

namespace Document

variable {d : Document}

/-- A node that is appended has its content, and the others keep theirs. -/
theorem content_append {p : Nat} (hp : p < d.size) (n : Node) (i : Nat) :
    ((d.append p n).node i).content = if i = d.size then n.content else (d.node i).content := by
  rcases Nat.lt_trichotomy i d.size with hlt | rfl | hgt
  · rw [if_neg (by omega)]
    by_cases hi : i = p
    · rw [hi, node_append_parent hp]
    · rw [node_append_of_ne n hlt hi]
  · rw [node_append_self hp, if_pos rfl]
  · rw [node_of_size_le (by rw [size_append]; omega), node_of_size_le (by omega), if_neg (by omega)]

/-- A change that keeps something of a content keeps it everywhere. -/
theorem content_update {id : Nat} {f : Node → Node} {α : Type} {g : Content → α}
    (hf : g (f (d.node id)).content = g (d.node id).content) (i : Nat) :
    g ((d.update id f).node i).content = g (d.node i).content := by
  rcases node_update_cases d id f i with hnode | ⟨rfl, hnode⟩
  · rw [hnode]
  · rw [hnode, hf]

end Document

/-- A builder whose document lists its nodes in the order of their numbers, and whose open elements
stand at the right edge of it. -/
structure Builder.Ordered (b : Builder) : Prop where
  shape : b.WellFormed
  walk : b.document.walk = List.range b.document.size
  edge : ∀ id ∈ b.stack, b.document.Edge 0 id
  /-- An element is opened after those around it. -/
  inward : b.stack.Pairwise (· > ·)
  root : (b.document.node 0).content.type = .document
  tags : ∀ id ∈ b.stack, (b.document.node id).content.type = .element
  /-- Nothing is below a text. -/
  leaves : ∀ id, (b.document.node id).content.type = .text → b.document.children id = []

namespace Builder

/-- A builder starts in order. -/
theorem ordered_empty (diagnostics : List Source.Diagnostic) :
    ({ diagnostics := diagnostics } : Builder).Ordered where
  shape := wellFormed_empty diagnostics
  walk := by
    show Document.empty.walk = List.range Document.empty.size
    decide
  edge := by simp
  inward := .nil
  root := rfl
  tags := by simp
  leaves := by
    intro id _
    rw [Document.children, Document.node_empty]
    rfl

variable {b b' : Builder}

/-- The node that is open is on the edge of the root. -/
theorem Ordered.edge_parent (h : b.Ordered) : b.document.Edge 0 b.parent := by
  unfold parent
  cases hstack : b.stack with
  | nil => exact .refl 0
  | cons id rest => exact h.edge id (by simp [hstack])

/-- No node on the stack is behind the one that is open. -/
theorem Ordered.le_parent (h : b.Ordered) : ∀ id ∈ b.stack, id ≤ b.parent := by
  have hinward := h.inward
  unfold parent
  cases hstack : b.stack with
  | nil => simp
  | cons first rest =>
      rw [hstack] at hinward
      refine List.forall_mem_cons.mpr ⟨Nat.le_refl _, ?_⟩
      intro id hid
      exact Nat.le_of_lt ((List.pairwise_cons.mp hinward).1 id hid)

/-- The innermost open element, or the root, is no text. -/
theorem Ordered.type_parent (h : b.Ordered) : (b.document.node b.parent).content.type ≠ .text := by
  unfold parent
  cases hstack : b.stack with
  | nil => simp [h.root]
  | cons id rest => simp [h.tags id (by simp [hstack])]

/-- A node without children is walked last when it is added. -/
theorem Ordered.walk_add (h : b.Ordered) {n : Node} (hn : n.children = []) :
    (b.add n).document.walk = b.document.walk ++ [b.document.size] :=
  Document.walk_append h.shape.document.forward h.shape.parent_lt hn h.edge_parent
    (by rw [h.walk]; exact List.nodup_range)

/-- Adding a node keeps the order. -/
theorem Ordered.add (h : b.Ordered) {n : Node} (hn : n.children = [])
    (hname : ∀ name ∈ n.tag?, ∀ c ∈ name.toList, isTagPart c = true) : (b.add n).Ordered := by
  have hparent := h.shape.parent_lt
  have hforward := h.shape.document.forward
  refine ⟨h.shape.add hn hname, ?_, ?_, h.inward, ?_, ?_, ?_⟩
  · rw [h.walk_add hn, h.walk, Builder.add, Document.size_append, List.range_succ]
  · intro id hid
    exact (h.edge id hid).append hforward (h.le_parent id hid)
  · rw [Builder.add, Document.content_append hparent, if_neg (by omega)]
    exact h.root
  · intro id hid
    have hlt := h.shape.stack id hid
    rw [Builder.add, Document.content_append hparent, if_neg (by omega)]
    exact h.tags id hid
  · intro id htype
    rw [Builder.add] at htype ⊢
    rcases Nat.lt_trichotomy id b.document.size with hlt | rfl | hgt
    · rw [Document.content_append hparent, if_neg (by omega)] at htype
      have hne : id ≠ b.parent := by
        rintro rfl
        exact h.type_parent htype
      rw [Document.children_append_of_ne hlt hne]
      exact h.leaves id htype
    · exact Document.children_append_self hparent hn
    · rw [Document.children, Document.node_of_size_le (by rw [Document.size_append]; omega)]
      rfl

/-- Opening the node that was added last keeps the order. -/
theorem Ordered.push (h : b.Ordered) {n : Node} (hadd : (b.add n).Ordered)
    (hn : n.content.type = .element) :
    ({ b.add n with stack := b.document.size :: b.stack } : Builder).Ordered := by
  have hparent := h.shape.parent_lt
  refine ⟨⟨hadd.shape.document, hadd.shape.pos, List.forall_mem_cons.mpr ⟨?_, hadd.shape.stack⟩⟩,
    hadd.walk, List.forall_mem_cons.mpr ⟨?_, hadd.edge⟩, ?_, hadd.root,
    List.forall_mem_cons.mpr ⟨?_, hadd.tags⟩, hadd.leaves⟩
  · simp [Builder.add]
  · exact h.edge_parent.append_self h.shape.document.forward hparent
  · exact List.pairwise_cons.mpr ⟨h.shape.stack, h.inward⟩
  · rw [Builder.add, Document.content_append hparent, if_pos rfl, hn]

/-- Changing a node but for its children and what kind of node it is, and closing elements, keeps the
order. -/
theorem Ordered.change (h : b.Ordered) (hshape : b'.WellFormed) {id : Nat} {f : Node → Node}
    (hdocument : b'.document = b.document.update id f)
    (hchildren : (f (b.document.node id)).children = (b.document.node id).children)
    (htype : (f (b.document.node id)).content.type = (b.document.node id).content.type)
    (hstack : b'.stack <:+ b.stack) : b'.Ordered := by
  have hkind := Document.content_update htype
  refine ⟨hshape, ?_, ?_, h.inward.sublist hstack.sublist, ?_, ?_, ?_⟩
  · rw [hdocument, Document.walk_update hchildren, Document.size_update, h.walk]
  · intro i hi
    rw [hdocument]
    exact (h.edge i (hstack.subset hi)).update hchildren
  · rw [hdocument, hkind, h.root]
  · intro i hi
    rw [hdocument, hkind, h.tags i (hstack.subset hi)]
  · intro i hi
    rw [hdocument, hkind] at hi
    rw [hdocument, Document.children_update hchildren, h.leaves i hi]

/-- A step that touches neither document nor stack keeps a builder in order. -/
theorem Ordered.same (h : b.Ordered) (hdocument : b'.document = b.document)
    (hstack : b'.stack = b.stack) : b'.Ordered := by
  obtain ⟨⟨hd, hpos, hs⟩, hwalk, hedge, hinward, hroot, htags, hleaves⟩ := h
  rw [← hdocument] at hd hpos hwalk hroot hleaves
  simp only [← hdocument, ← hstack] at hs hedge hinward htags
  exact ⟨⟨hd, hpos, hs⟩, hwalk, hedge, hinward, hroot, htags, hleaves⟩

/-- The last text is the last child. -/
theorem getLast?_of_lastText? {id : Nat} {text : String} (h : b.lastText? = some (id, text)) :
    (b.document.children b.parent).getLast? = some id := by
  simp only [lastText?] at h
  split at h
  · next last hlast =>
      split at h
      · rw [hlast, (Prod.mk.inj (Option.some.inj h)).1]
      · simp at h
  · simp at h

/-- The text that further text is joined to is the last node on the walk. -/
theorem Ordered.size_of_lastText? (h : b.Ordered) {id : Nat} {text : String}
    (hlast : b.lastText? = some (id, text)) : b.document.size = id + 1 := by
  have hleaf : b.document.children id = [] :=
    h.leaves id (by rw [content_of_lastText? hlast]; rfl)
  have hend := (h.edge_parent.last (getLast?_of_lastText? hlast)).getLast?_below
    h.shape.document.forward b.document.size hleaf (by omega)
  have hwalk : 0 :: b.document.below b.document.size 0 = List.range b.document.size := h.walk
  rw [hwalk, List.getLast?_range] at hend
  have hpos := h.shape.pos
  rw [if_neg (by omega), Option.some.injEq] at hend
  omega

/-- What a token can do to a builder: it adds a node, which may be opened, or changes a node but for
its children and its kind, and may close elements. -/
inductive Moves (b : Builder) : Builder → Prop
  | add {n : Node} (hn : n.children = [])
      (hname : ∀ name ∈ n.tag?, ∀ c ∈ name.toList, isTagPart c = true) : Moves b (b.add n)
  | push {n : Node} (hn : n.children = [])
      (hname : ∀ name ∈ n.tag?, ∀ c ∈ name.toList, isTagPart c = true)
      (htype : n.content.type = .element) : Moves b (b.inside n)
  | change {b' : Builder} {id : Nat} {f : Node → Node}
      (hdocument : b'.document = b.document.update id f)
      (hchildren : (f (b.document.node id)).children = (b.document.node id).children)
      (htype : (f (b.document.node id)).content.type = (b.document.node id).content.type)
      (hstack : b'.stack <:+ b.stack) : Moves b b'
  | same {b' : Builder} (hdocument : b'.document = b.document) (hstack : b'.stack = b.stack) :
      Moves b b'

/-- The node of an opening tag. -/
def opened (c : Context) (name : String) (attributes : List AttributeToken) (selfClosing : Bool)
    (start stop : Nat) : Node :=
  { Node.ofElement ⟨name, selfClosing || isVoid name, selfClosing,
      attributes.map (attributeOf c), none⟩ with position := c.position start stop }

/-- An opening tag adds a node and goes inside it, unless it closes itself. -/
theorem openElement_eq (name : String) (attributes : List AttributeToken) (selfClosing : Bool)
    (start stop : Nat) : b.openElement c name attributes selfClosing start stop =
      if selfClosing || isVoid name then b.add (opened c name attributes selfClosing start stop)
      else b.inside (opened c name attributes selfClosing start stop) := rfl

/-- A step moves a builder along. -/
theorem step_moves (b : Builder) (c : Context) {t : Token} (ht : t.lexeme.Named) :
    b.Moves (b.step c t) := by
  obtain ⟨lexeme, start, stop⟩ := t
  cases lexeme with
  | text text =>
      simp only [Builder.step, Builder.addText]
      split
      · next last before hlast =>
          refine .change rfl rfl ?_ List.suffix_rfl
          rw [content_of_lastText? hlast]
          rfl
      · exact .add rfl (by simp [Node.tag?, Node.element?, Node.ofText])
  | comment content =>
      simp only [Builder.step, Builder.addComment]
      split
      · exact .add rfl (by simp [Node.tag?, Node.element?, Node.ofComment])
      · exact .same rfl rfl
  | opening name attributes selfClosing =>
      have hname : ∀ name' ∈ (opened c name attributes selfClosing start stop).tag?,
          ∀ c ∈ name'.toList, isTagPart c = true := by
        simpa [Node.tag?, Node.element?, Node.ofElement, opened, Lexeme.Named] using ht
      simp only [Builder.step]
      rw [openElement_eq]
      split
      · exact .add rfl hname
      · exact .push rfl hname rfl
  | closing name =>
      simp only [Builder.step, Builder.closeElement]
      split
      · split
        · exact .same rfl rfl
        · exact .same rfl rfl
      · next id outer hdrop =>
          have hsuffix := List.dropWhile_suffix (l := b.stack) fun id => !(closes (b.nameOf id) name)
          rw [hdrop] at hsuffix
          exact .change (by rw [reportUnclosed_document]) rfl rfl
            ((List.suffix_cons id outer).trans hsuffix)
  | raw text =>
      refine .change rfl (Node.children_mapElement _ _) ?_ List.suffix_rfl
      unfold Node.mapElement
      split
      · next e he =>
          rw [he]
          rfl
      · rfl

/-- **One step.**  A token keeps the order. -/
theorem Ordered.step (h : b.Ordered) (c : Context) {t : Token} (ht : t.lexeme.Named) :
    (b.step c t).Ordered := by
  have hshape := h.shape.step c ht
  have hmoves := b.step_moves c ht
  generalize b.step c t = b' at hshape hmoves ⊢
  cases hmoves with
  | add hn hname => exact h.add hn hname
  | push hn hname htype => exact h.push (h.add hn hname) htype
  | change hdocument hchildren htype hstack => exact h.change hshape hdocument hchildren htype hstack
  | same hdocument hstack => exact h.same hdocument hstack

/-- **The whole run.**  The tokens of a source keep the order. -/
theorem Ordered.run (h : b.Ordered) (c : Context) {tokens : List Token}
    (ht : ∀ t ∈ tokens, t.lexeme.Named) : (tokens.foldl (Builder.step c) b).Ordered := by
  induction tokens generalizing b with
  | nil => exact h
  | cons t rest ih =>
      obtain ⟨hfirst, hrest⟩ := List.forall_mem_cons.mp ht
      exact ih (h.step c hfirst) hrest

end Builder

/-- A built document is in order. -/
theorem built_ordered (s : Settings) (source : String) : (built s source).Ordered :=
  (Builder.ordered_empty _).run _ (scan_named source)

end Stencil.Markup
