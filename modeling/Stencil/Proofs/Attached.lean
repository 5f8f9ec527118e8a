import Stencil.Proofs.Origin
import Stencil.Proofs.Settled

/-!
# Which nodes are attached

A node is attached if it is on the walk.  In a document that was read from a text, the table of
parents agrees with the children, and only the root and tags have children (`Document.Linked`).
Trimming cuts off blank text and nothing else, so every tag is attached (`parseTemplate_mem_walk`).
No pass changes any of this (`parseTemplate_sameTree`).
-/

namespace Stencil.Markup

namespace Document

variable {d d' : Document}

/-- What is below a node is a child of it or of something below. -/
theorem mem_below_cases {levels id i : Nat} (h : i ∈ d.below levels id) :
    i ∈ d.children id ∨ ∃ p ∈ d.below levels id, i ∈ d.children p := by
  induction levels generalizing id with
  | zero => simp [below] at h
  | succ levels ih =>
      obtain ⟨child, hchild, hi⟩ := List.mem_flatMap.mp h
      have hdown : ∀ p ∈ child :: d.below levels child, p ∈ d.below (levels + 1) id :=
        fun p hp => List.mem_flatMap.mpr ⟨child, hchild, hp⟩
      rcases List.mem_cons.mp hi with rfl | hi
      · exact .inl hchild
      · rcases ih hi with hi | ⟨p, hp, hi⟩
        · exact .inr ⟨child, hdown child List.mem_cons_self, hi⟩
        · exact .inr ⟨p, hdown p (List.mem_cons_of_mem _ hp), hi⟩

/-- An attached node is the root or a child of an attached node. -/
theorem mem_walk_cases {i : Nat} (h : i ∈ d.walk) : i = 0 ∨ ∃ p ∈ d.walk, i ∈ d.children p := by
  rcases List.mem_cons.mp h with rfl | h
  · exact .inl rfl
  · rcases mem_below_cases h with hi | ⟨p, hp, hi⟩
    · exact .inr ⟨0, List.mem_cons_self, hi⟩
    · exact .inr ⟨p, List.mem_cons_of_mem _ hp, hi⟩

/-- Children of what is below are below, where there are levels enough. -/
theorem mem_below_of_child (h : d.Forward) {levels id p child : Nat}
    (hlevels : d.size ≤ id + levels + 1) (hp : p ∈ id :: d.below levels id)
    (hchild : child ∈ d.children p) : child ∈ d.below levels id := by
  induction levels generalizing id with
  | zero =>
      have hid : p = id := by simpa [below] using hp
      have := h p child hchild
      omega
  | succ levels ih =>
      rcases List.mem_cons.mp hp with rfl | hp
      · exact List.mem_flatMap.mpr ⟨child, hchild, List.mem_cons_self⟩
      · obtain ⟨first, hfirst, hp⟩ := List.mem_flatMap.mp hp
        have hforward := h id first hfirst
        exact List.mem_flatMap.mpr
          ⟨first, hfirst, List.mem_cons_of_mem _ (ih (by omega) hp)⟩

/-- The children of attached nodes are attached. -/
theorem mem_walk_of_child (h : d.Forward) {p child : Nat} (hp : p ∈ d.walk)
    (hchild : child ∈ d.children p) : child ∈ d.walk :=
  List.mem_cons_of_mem _ (mem_below_of_child h (by omega) hp hchild)

/-- The table of parents agrees with the children, and only the root and tags have children. -/
structure Linked (d : Document) : Prop where
  child : ∀ p, ∀ id ∈ d.children p, d.parent? id = some p
  host : ∀ p, d.children p ≠ [] → p = 0 ∨ (d.node p).isTag = true
  root : d.parent? 0 = none

/-- Every node but the root and blank text is a child of a node that is no blank text. -/
def Hung (d : Document) : Prop :=
  ∀ i, 0 < i → i < d.size → (d.node i).isBlankText = false →
    ∃ p, i ∈ d.children p ∧ (d.node p).isBlankText = false

/-- What is not blank text is attached. -/
theorem Hung.mem_walk (h : d.Hung) (hforward : d.Forward) {i : Nat} (hi : i < d.size)
    (hblank : (d.node i).isBlankText = false) : i ∈ d.walk := by
  induction i using Nat.strong_induction_on with
  | _ i ih =>
      by_cases hzero : i = 0
      · rw [hzero]
        exact List.mem_cons_self
      · obtain ⟨p, hchild, hp⟩ := h i (by omega) hi hblank
        have := hforward p i hchild
        exact mem_walk_of_child hforward (ih p (by omega) (by omega) hp) hchild

/-- Only blank text is lost from the children, and nothing else is changed. -/
structure Prunes (d d' : Document) : Prop where
  node : ∀ i, ∃ children, d'.node i = { d.node i with children }
  linked : d.Linked → d'.Linked
  hung : d.Hung → d'.Hung

theorem Prunes.refl (d : Document) : d.Prunes d := ⟨fun _ => ⟨_, rfl⟩, id, id⟩

theorem Prunes.trans {a b c : Document} (h : a.Prunes b) (h' : b.Prunes c) : a.Prunes c := by
  refine ⟨?_, h'.linked ∘ h.linked, h'.hung ∘ h.hung⟩
  intro i
  obtain ⟨_, hb⟩ := h.node i
  obtain ⟨children, hc⟩ := h'.node i
  exact ⟨children, by rw [hc, hb]⟩

section Detach

variable {id p : Nat}

/-- Taking a node from its parent touches the parent and the link between them. -/
theorem detach_eq (hp : d.parent? id = some p) :
    d.detach id = { d.update p fun n => { n with children := n.children.filter (· != id) } with
      parents := d.parents.modify id fun _ => none } := by
  simp only [detach, hp]
  rfl

/-- Of the nodes, only the parent changes when one is taken from it. -/
theorem node_detach (hp : d.parent? id = some p) (i : Nat) :
    (d.detach id).node i = if i = p then
      { d.node i with children := (d.children i).filter (· != id) } else d.node i := by
  rw [detach_eq hp]
  show (d.update p fun n => { n with children := n.children.filter (· != id) }).node i = _
  by_cases hlt : p < d.size
  · rw [node_update hlt]
    rfl
  · rcases d.node_update_cases p (fun n => { n with children := n.children.filter (· != id) }) i
      with hnode | ⟨rfl, hnode⟩
    · rw [hnode]
      split
      · next heq =>
          rw [children, node_of_size_le (by omega)]
          rfl
      · rfl
    · rw [hnode, if_pos rfl, children]

/-- The parent loses the child. -/
theorem children_detach (hp : d.parent? id = some p) (i : Nat) :
    (d.detach id).children i =
      if i = p then (d.children i).filter (· != id) else d.children i := by
  rw [children, node_detach hp]
  split <;> rfl

/-- The child loses its parent. -/
theorem parent?_detach (hp : d.parent? id = some p) (i : Nat) :
    (d.detach id).parent? i = if i = id then none else d.parent? i := by
  rw [detach_eq hp]
  unfold parent? Array.getD
  by_cases hi : i = id
  · subst hi
    simp [Array.getElem_modify]
  · simp [Array.getElem_modify, hi, Ne.symm hi]

/-- No content changes when a node is taken from its parent. -/
theorem content_detach (hp : d.parent? id = some p) (i : Nat) :
    ((d.detach id).node i).content = (d.node i).content := by
  rw [node_detach hp]
  split <;> rfl

/-- Cutting off a node keeps the links of all others. -/
theorem Linked.detach (h : d.Linked) (hp : d.parent? id = some p) : (d.detach id).Linked := by
  refine ⟨?_, ?_, ?_⟩
  · intro q i hi
    rw [children_detach hp] at hi
    have hold : i ∈ d.children q ∧ i ≠ id := by
      split at hi
      · simpa using hi
      · next hq =>
          refine ⟨hi, ?_⟩
          rintro rfl
          exact hq (Option.some.inj ((h.child q i hi).symm.trans hp))
    rw [parent?_detach hp, if_neg hold.2]
    exact h.child q i hold.1
  · intro q hq
    have hold : d.children q ≠ [] := by
      intro hnone
      simp [children_detach hp, hnone] at hq
    rw [Node.isTag, Node.element?_congr (content_detach hp q)]
    exact h.host q hold
  · rw [parent?_detach hp, h.root]
    simp

/-- Cutting off blank text leaves all other nodes where they are. -/
theorem Hung.detach (h : d.Hung) (hp : d.parent? id = some p)
    (hblank : (d.node id).isBlankText = true) : (d.detach id).Hung := by
  intro i hpos hlt hi
  have hsize : (d.detach id).size = d.size := by
    rw [detach_eq hp]
    exact size_update d p _
  rw [hsize] at hlt
  rw [Node.isBlankText_congr (content_detach hp i)] at hi
  obtain ⟨q, hchild, hq⟩ := h i hpos hlt hi
  refine ⟨q, ?_, by rw [Node.isBlankText_congr (content_detach hp q), hq]⟩
  have hne : i ≠ id := by
    rintro rfl
    rw [hblank] at hi
    simp at hi
  rw [children_detach hp]
  split
  · simp [hchild, hne]
  · exact hchild

end Detach

/-- Dropping a blank text only prunes. -/
theorem prunes_dropBlank (d : Document) (id : Option Nat) : d.Prunes (d.dropBlank id) := by
  unfold dropBlank
  split
  · next id =>
      split
      · next hblank =>
          cases hp : d.parent? id with
          | none =>
              rw [show d.detach id = d by simp only [detach, hp]]
              exact .refl d
          | some p =>
              refine ⟨?_, fun h => h.detach hp, fun h => h.detach hp hblank⟩
              intro i
              rw [node_detach hp]
              split
              · exact ⟨_, rfl⟩
              · exact ⟨_, rfl⟩
      · exact .refl d
  · exact .refl d

/-- A sequence of changes that each prune only prunes. -/
theorem prunes_foldl {α : Type} {f : Document → α → Document} (h : ∀ d a, Prunes d (f d a))
    (as : List α) (d : Document) : d.Prunes (as.foldl f d) := by
  induction as generalizing d with
  | nil => exact .refl d
  | cons a rest ih => exact (h d a).trans (ih (f d a))

/-- Trimming cuts off blank text only. -/
theorem prunes_trimBlanks (d : Document) : d.Prunes d.trimBlanks := by
  unfold trimBlanks
  refine (prunes_foldl (fun d id => prunes_dropBlank d (some id)) _ d).trans (prunes_foldl ?_ _ _)
  intro d id
  exact (prunes_dropBlank d _).trans (prunes_dropBlank _ _)

end Document

namespace Builder

variable {b b' : Builder}

/-- Only the root and elements have children. -/
def Hosted (b : Builder) : Prop :=
  ∀ p, b.document.children p ≠ [] → p = 0 ∨ (b.document.node p).content.type = .element

/-- Adding a node without children keeps a builder hosted. -/
theorem Ordered.hosted_add (ho : b.Ordered) (h : b.Hosted) {n : Node} (hn : n.children = []) :
    (b.add n).Hosted := by
  have hparent := ho.shape.parent_lt
  intro p hp
  rw [Builder.add] at hp ⊢
  rcases Nat.lt_trichotomy p b.document.size with hlt | rfl | hgt
  · rw [Document.content_append hparent, if_neg (by omega)]
    by_cases hlast : p = b.parent
    · rw [hlast, parent]
      cases hstack : b.stack with
      | nil => exact .inl rfl
      | cons id outer => exact .inr (ho.tags id (by simp [hstack]))
    · rw [Document.children_append_of_ne hlt hlast] at hp
      exact h p hp
  · exact absurd (Document.children_append_self hparent hn) hp
  · rw [Document.children, Document.node_of_size_le (by rw [Document.size_append]; omega)] at hp
    exact absurd rfl hp

/-- **One step.**  A token adds nodes below the root and elements only. -/
theorem Ordered.hosted_step (ho : b.Ordered) (h : b.Hosted) (c : Context) {t : Token}
    (ht : t.lexeme.Named) : (b.step c t).Hosted := by
  have hmoves := b.step_moves c ht
  generalize b.step c t = b' at hmoves ⊢
  cases hmoves with
  | add hn hname => exact ho.hosted_add h hn
  | push hn hname htype => exact ho.hosted_add h hn
  | change hdocument hchildren htype hstack =>
      intro p hp
      rw [hdocument, Document.children_update hchildren] at hp
      rw [hdocument, Document.content_update htype]
      exact h p hp
  | same hdocument hstack =>
      intro p hp
      rw [hdocument] at hp ⊢
      exact h p hp

/-- **The whole run.** -/
theorem Ordered.hosted_run (ho : b.Ordered) (h : b.Hosted) (c : Context) {tokens : List Token}
    (ht : ∀ t ∈ tokens, t.lexeme.Named) : (tokens.foldl (Builder.step c) b).Hosted := by
  induction tokens generalizing b with
  | nil => exact h
  | cons t rest ih =>
      obtain ⟨hfirst, hrest⟩ := List.forall_mem_cons.mp ht
      exact ih (ho.step c hfirst) (ho.hosted_step h c hfirst) hrest

/-- The document of a linked and hosted builder is linked. -/
theorem Linked.document_linked (h : b.Linked) (hhosted : b.Hosted) : b.document.Linked := by
  refine ⟨h.child, ?_, h.root⟩
  intro p hp
  rcases hhosted p hp with hzero | htype
  · exact .inl hzero
  · right
    cases hcontent : (b.document.node p).content with
    | element e => simp [Node.isTag, Node.element?, hcontent]
    | document | text | comment =>
        rw [hcontent] at htype
        simp [Content.type] at htype

/-- While tokens are taken in, all nodes are attached. -/
theorem Ordered.hung (h : b.Ordered) : b.document.Hung := by
  intro i hpos hlt _
  have hwalk : i ∈ b.document.walk := by
    rw [h.walk]
    exact List.mem_range.mpr hlt
  obtain ⟨p, -, hchild⟩ := (Document.mem_walk_cases hwalk).resolve_left (by omega)
  refine ⟨p, hchild, ?_⟩
  unfold Node.isBlankText
  split
  · next text htext =>
      have hleaf := h.leaves p (by rw [htext]; rfl)
      rw [hleaf] at hchild
      simp at hchild
  · rfl

end Builder

/-- The tokens of a source make a document whose nodes are linked to each other. -/
theorem built_document_linked (s : Settings) (source : String) : (built s source).document.Linked := by
  have hhosted : ({ diagnostics := (scan source).2.map (Context.diagnostic ⟨s, .of source⟩) } :
      Builder).Hosted := by
    intro p hp
    rw [Document.children, Document.node_empty] at hp
    exact absurd rfl hp
  exact (built_linked s source).document_linked
    ((Builder.ordered_empty _).hosted_run hhosted _ (scan_named source))

/-- Nothing has been found out about the nodes that the tokens of a source make. -/
theorem built_fresh (s : Settings) (source : String) (i : Nat) :
    ((built s source).document.node i).Fresh := by
  apply Builder.fresh_run
  intro i
  rw [Document.node_empty]
  exact ⟨rfl, rfl, by simp [Node.document, Node.element?]⟩

/-- A document is what the tokens of its source make, but for nodes that are cut off. -/
theorem prunes_parse (s : Settings) (source : String) :
    (built s source).document.Prunes (parse s source).1 := by
  rw [parse_document]
  split
  · exact Document.prunes_trimBlanks _
  · exact .refl _

/-- Nothing has been found out yet about the nodes of a document that was just read. -/
theorem parse_fresh (s : Settings) (source : String) (i : Nat) :
    ((parse s source).1.node i).Fresh := by
  have hfresh := built_fresh s source i
  obtain ⟨children, hnode⟩ := (prunes_parse s source).node i
  rw [hnode]
  exact ⟨hfresh.type, hfresh.params, hfresh.kinds⟩

/-- The root of a document that was just read. -/
theorem parse_root (s : Settings) (source : String) :
    ((parse s source).1.node 0).type = .document := by
  obtain ⟨children, hnode⟩ := (prunes_parse s source).node 0
  rw [hnode]
  exact (built_fresh s source 0).type.trans (built_ordered s source).root

/-- A parsed document is linked. -/
theorem parse_linked (s : Settings) (source : String) : (parse s source).1.Linked :=
  (prunes_parse s source).linked (built_document_linked s source)

/-- Every node of a parsed document hangs somewhere. -/
theorem parse_hung (s : Settings) (source : String) : (parse s source).1.Hung :=
  (prunes_parse s source).hung (built_ordered s source).hung

/-- Whether a node is a tag depends on its tag only. -/
theorem Node.isTag_congr {n m : Node} (h : n.tag? = m.tag?) : n.isTag = m.isTag := by
  have hsome : ∀ n : Node, n.isTag = n.tag?.isSome := by
    intro n
    simp [isTag, tag?]
  rw [hsome, hsome, h]

/-- The links of a document depend on its tree and on which nodes are tags. -/
theorem Document.Linked.congr {d d' : Document} (h : d.Linked) (htree : d.SameTree d')
    (htags : ∀ id, (d'.node id).tag? = (d.node id).tag?) : d'.Linked := by
  have hparent : ∀ id, d'.parent? id = d.parent? id := by
    intro id
    rw [parent?, parent?, htree.parents]
  refine ⟨?_, ?_, by rw [hparent, h.root]⟩
  · intro p id hid
    rw [htree.children] at hid
    rw [hparent]
    exact h.child p id hid
  · intro p hp
    rw [htree.children] at hp
    rw [Node.isTag_congr (htags p)]
    exact h.host p hp

end Stencil.Markup

namespace Stencil

open Stencil.Markup Stencil.Passes
open Stencil.Script (Language)

variable {lang : Language} {typed : Bool} {d : Document} {o : Options} {source : String}

/-- A run of passes that reports no error keeps the tree. -/
theorem sameTree_runPasses {passes : List Pass}
    (h : (runPasses lang typed passes d).error = none) :
    d.SameTree (runPasses lang typed passes d).document := by
  induction passes generalizing typed d with
  | nil => exact .refl d
  | cons p rest ih =>
      obtain ⟨hfirst, typed', hrest, heq⟩ := runPasses_cons_ok h
      rw [heq]
      exact (Pass.sameTree_run hfirst).trans (ih hrest)

/-- All passes together keep the tree. -/
theorem parseTemplate_sameTree (h : (parseTemplate lang o source).error = none) :
    (parse o.markup source).1.SameTree (parseTemplate lang o source).document :=
  sameTree_runPasses h

/-- **Every tag of a template is attached.** -/
theorem parseTemplate_mem_walk (h : (parseTemplate lang o source).error = none) {id : Nat}
    (hid : ((parseTemplate lang o source).document.node id).isTag = true) :
    id ∈ (parseTemplate lang o source).document.walk := by
  have htag : ((parse o.markup source).1.node id).isTag = true := by
    rw [← Node.isTag_congr ((keeps_runPasses lang false Pass.all _).tags id)]
    exact hid
  rw [(parseTemplate_sameTree h).walk_eq]
  have hsize : id < (parse o.markup source).1.size := by
    by_contra hge
    rw [Document.node_of_size_le (by omega)] at htag
    simp [Node.isTag, Node.element?, Node.document] at htag
  refine (parse_hung o.markup source).mem_walk (parse_wellFormed o.markup source).forward hsize ?_
  unfold Node.isBlankText
  split
  · next htext => simp [Node.isTag, Node.element?, htext] at htag
  · rfl

end Stencil
