import Stencil.Markup.Document

/-!
# Nodes of a growing document

What changing a node and adding one do to the nodes of a document, and `Node.Alike`, by which two
nodes differ at most in where they stand in the source.
-/

namespace Stencil.Markup

/-- The nodes are the same but for their positions. -/
structure Node.Alike (n m : Node) : Prop where
  type : n.type = m.type
  content : n.content = m.content
  children : n.children = m.children
  params : n.params = m.params

theorem Node.Alike.refl (n : Node) : n.Alike n := ⟨rfl, rfl, rfl, rfl⟩

theorem Node.Alike.trans {n m k : Node} (h : n.Alike m) (h' : m.Alike k) : n.Alike k :=
  ⟨h.type.trans h'.type, h.content.trans h'.content, h.children.trans h'.children,
    h.params.trans h'.params⟩

/-- The content of a node with an element is that element. -/
theorem Node.content_of_element? {n : Node} {e : Element} (h : n.element? = some e) :
    n.content = .element e := by
  unfold element? at h
  split at h
  · next hcontent => rw [hcontent, Option.some.inj h]
  · simp at h

namespace Document

/-- Behind the last node there is nothing. -/
theorem node_of_size_le {d : Document} {id : Nat} (h : d.size ≤ id) : d.node id = Node.document := by
  have hge : ¬ id < d.nodes.size := Nat.not_lt.mpr h
  simp [node, Array.getD, hge]

/-- The only node of an empty document is the document. -/
theorem node_empty (id : Nat) : empty.node id = Node.document := by
  cases id with
  | zero => rfl
  | succ id => exact node_of_size_le (Nat.le_add_left 1 id)

/-- A change to a node adds none. -/
@[simp] theorem size_update (d : Document) (id : Nat) (f : Node → Node) :
    (d.update id f).size = d.size := by
  simp [size, update]

/-- A change to a node leaves the others. -/
theorem node_update {d : Document} {id : Nat} (h : id < d.size) (f : Node → Node) (i : Nat) :
    (d.update id f).node i = if i = id then f (d.node i) else d.node i := by
  unfold size at h
  unfold node update
  by_cases hi : i = id
  · subst hi
    simp [Array.getD, h, Array.getElem_modify]
  · by_cases hs : i < d.nodes.size
    · simp [Array.getD, hs, Array.getElem_modify, hi, Ne.symm hi]
    · simp [Array.getD, hs, hi]

/-- The node that is changed is changed. -/
theorem node_update_self {d : Document} {id : Nat} (h : id < d.size) (f : Node → Node) :
    (d.update id f).node id = f (d.node id) := by
  rw [node_update h, if_pos rfl]

/-- Any other node is not. -/
theorem node_update_of_ne {d : Document} {id : Nat} (h : id < d.size) (f : Node → Node) {i : Nat}
    (hi : i ≠ id) : (d.update id f).node i = d.node i := by
  rw [node_update h, if_neg hi]

/-- Every node is left as it was, or it is the one that was changed. -/
theorem node_update_cases (d : Document) (id : Nat) (f : Node → Node) (i : Nat) :
    (d.update id f).node i = d.node i ∨ i = id ∧ (d.update id f).node i = f (d.node i) := by
  by_cases h : id < d.size
  · rw [node_update h]
    split
    · next hi => exact .inr ⟨hi, rfl⟩
    · exact .inl rfl
  · left
    have hsame : d.nodes.modify id f = d.nodes := by
      apply Array.ext (by simp)
      intro j hj _
      rw [Array.getElem_modify, if_neg]
      rintro rfl
      exact h (by simpa [size] using hj)
    simp [node, update, hsame]

/-- Appending adds one node. -/
@[simp] theorem size_append (d : Document) (parent : Nat) (n : Node) :
    (d.append parent n).size = d.size + 1 := by
  simp [size, append]

/-- The added node, unless it is its own parent. -/
theorem node_append_self {d : Document} {parent : Nat} (h : parent < d.size) (n : Node) :
    (d.append parent n).node d.size = n := by
  have hne : parent ≠ d.nodes.size := Nat.ne_of_lt h
  simp [node, append, size, Array.getD, Array.getElem_modify, hne]

/-- The parent of the node that is appended has it as its last child. -/
theorem node_append_parent {d : Document} {parent : Nat} (h : parent < d.size) (n : Node) :
    (d.append parent n).node parent =
      { d.node parent with children := d.children parent ++ [d.size] } := by
  have hlt : parent < d.nodes.size := h
  have hlt' : parent < d.nodes.size + 1 := Nat.lt_succ_of_lt hlt
  simp [node, children, append, size, Array.getD, hlt', hlt, Array.getElem_push,
    Array.getElem_modify]

/-- The other nodes do not change when one is appended. -/
theorem node_append_of_ne {d : Document} {parent : Nat} (n : Node) {i : Nat} (hi : i < d.size)
    (hne : i ≠ parent) : (d.append parent n).node i = d.node i := by
  have hlt : i < d.nodes.size := hi
  have hlt' : i < d.nodes.size + 1 := Nat.lt_succ_of_lt hlt
  simp [node, append, size, Array.getD, hlt', hlt, Array.getElem_push, Array.getElem_modify,
    Ne.symm hne]

/-- Every node is an old one or the new one, its children apart. -/
theorem node_append_cases (d : Document) (parent : Nat) (n : Node) (i : Nat) :
    ∃ children, (d.append parent n).node i = { d.node i with children } ∨
      (d.append parent n).node i = { n with children } := by
  have hpush : (Document.mk (d.nodes.push n) d.parents).node i = d.node i ∨
      (Document.mk (d.nodes.push n) d.parents).node i = n := by
    rcases Nat.lt_trichotomy i d.nodes.size with hlt | heq | hgt
    · have hlt' : i < d.nodes.size + 1 := Nat.lt_succ_of_lt hlt
      exact .inl (by simp [node, Array.getD, hlt, hlt', Array.getElem_push])
    · exact .inr (by simp [node, Array.getD, heq])
    · have hge : ¬ i < d.nodes.size := by omega
      have hge' : ¬ i < d.nodes.size + 1 := by omega
      exact .inl (by simp [node, Array.getD, hge, hge'])
  have hupdate := node_update_cases (Document.mk (d.nodes.push n) d.parents) parent
    (fun p => { p with children := p.children ++ [d.size] }) i
  have hnode : (d.append parent n).node i = (Document.update (Document.mk (d.nodes.push n) d.parents)
      parent fun p => { p with children := p.children ++ [d.size] }).node i := rfl
  rcases hpush with hpush | hpush <;> rcases hupdate with hupdate | ⟨-, hupdate⟩ <;>
    rw [hpush] at hupdate <;> rw [hnode, hupdate]
  · exact ⟨_, .inl rfl⟩
  · exact ⟨_, .inl rfl⟩
  · exact ⟨_, .inr rfl⟩
  · exact ⟨_, .inr rfl⟩

end Document

end Stencil.Markup
