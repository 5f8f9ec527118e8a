import Stencil.Proofs.Attached

/-!
# Documents are forests

A document keeps its tree twice, as lists of children and as a table of parents.  Whatever nodes are
added, cut off and trimmed, the two tables tell the same (`Document.Forest`): each change keeps it
so, and with it every run of changes.  Hence the walk with a stack of nodes ends (`Traverses`) and
lists the attached nodes once each, parents before children, and going to a sibling can be undone
(`Edited.forest_laws`).
-/

namespace Stencil.Markup.Document

variable {d d' : Document}

/-- The table of parents and the children tell the same tree. -/
structure Forest (d : Document) : Prop where
  table : d.parents.size = d.size
  parent_iff : ∀ id p, d.parent? id = some p ↔ id ∈ d.children p
  nodup : ∀ p, (d.children p).Nodup
  forward : d.Forward

/-- The documents that come from the empty one by adding nodes, cutting off and trimming. -/
inductive Edited : Document → Prop
  | empty : Edited .empty
  | append {d : Document} (h : Edited d) {p : Nat} {n : Node} (hp : p < d.size)
      (hn : n.children = []) : Edited (d.append p n)
  | detach {d : Document} (h : Edited d) (id : Nat) : Edited (d.detach id)
  | trim {d : Document} (h : Edited d) : Edited d.trimBlanks

/-- The walk that takes the nodes to list from a stack, where it puts the children of each node it
has listed: it ends with the second list if it starts with the first one as its stack. -/
inductive Traverses (d : Document) : List Nat → List Nat → Prop
  | done : Traverses d [] []
  | next {id : Nat} {stack listed : List Nat} (rest : Traverses d (d.children id ++ stack) listed) :
      Traverses d (id :: stack) (id :: listed)

namespace Forest

/-- An empty document is a forest. -/
theorem empty : Document.empty.Forest where
  table := rfl
  parent_iff id p := by
    have hparent : Document.empty.parent? id = none := by
      cases id with
      | zero => rfl
      | succ id => simp [parent?, Document.empty, Array.getD]
    simp [hparent, children, node_empty, Node.document]
  nodup p := by simp [children, node_empty, Node.document]
  forward p id hid := by simp [children, node_empty, Node.document] at hid

/-- A parent comes before its children. -/
theorem lt (h : d.Forest) {id p : Nat} (hid : d.parent? id = some p) : p < id :=
  (h.forward p id ((h.parent_iff id p).mp hid)).1

/-- The root has no parent. -/
theorem root (h : d.Forest) : d.parent? 0 = none := by
  rw [Option.eq_none_iff_forall_ne_some]
  intro p hp
  exact Nat.not_lt_zero p (h.lt hp)

/-- Adding a node keeps the forest. -/
theorem append (h : d.Forest) {p : Nat} {n : Node} (hp : p < d.size) (hn : n.children = []) :
    (d.append p n).Forest := by
  have hchildren : ∀ q, (d.append p n).children q =
      if q = p then d.children p ++ [d.size] else d.children q := by
    intro q
    split
    · next heq => rw [heq, children_append_parent hp]
    · next hne =>
        rcases Nat.lt_trichotomy q d.size with hlt | rfl | hgt
        · exact children_append_of_ne hlt hne
        · rw [children_append_self hp hn, children, node_of_size_le (Nat.le_refl _)]
          rfl
        · rw [children, children, node_of_size_le (by rw [size_append]; omega),
            node_of_size_le (by omega)]
  have hnew : ∀ q, d.size ∉ d.children q := fun q hq => Nat.lt_irrefl _ (h.forward q _ hq).2
  refine ⟨?_, ?_, ?_, ?_⟩
  · rw [size_append, Document.append, Array.size_push, h.table]
  · intro id q
    rw [parent?_append h.table, hchildren]
    by_cases hid : id = d.size
    · subst hid
      by_cases hq : q = p
      · simp [hq]
      · simp [hq, Ne.symm hq, hnew]
    · by_cases hq : q = p <;> simp [hq, hid, h.parent_iff]
  · intro q
    rw [hchildren]
    split
    · exact List.concat_eq_append ▸ (h.nodup p).concat (hnew p)
    · exact h.nodup q
  · intro q id hid
    rw [hchildren] at hid
    rw [size_append]
    split at hid
    · next heq =>
        rcases List.mem_append.mp hid with hid | hid
        · have := h.forward p id hid
          omega
        · have := List.mem_singleton.mp hid
          omega
    · have := h.forward q id hid
      omega

/-- Cutting off a node keeps the forest. -/
theorem detach (h : d.Forest) (id : Nat) : (d.detach id).Forest := by
  cases hp : d.parent? id with
  | none =>
      rw [show d.detach id = d by simp only [Document.detach, hp]]
      exact h
  | some p =>
      have hsize : (d.detach id).size = d.size := by
        rw [detach_eq hp]
        exact size_update d p _
      refine ⟨?_, ?_, ?_, ?_⟩
      · rw [hsize, detach_eq hp, Array.size_modify, h.table]
      · intro i q
        rw [parent?_detach hp, children_detach hp]
        by_cases hi : i = id
        · subst hi
          by_cases hq : q = p
          · simp [hq]
          · have hother : i ∉ d.children q := by
              rw [← h.parent_iff, hp, Option.some.injEq]
              exact Ne.symm hq
            simp [hq, hother]
        · by_cases hq : q = p <;> simp [hi, hq, h.parent_iff]
      · intro q
        rw [children_detach hp]
        split
        · exact (h.nodup q).filter _
        · exact h.nodup q
      · intro q i hi
        rw [children_detach hp] at hi
        rw [hsize]
        refine h.forward q i ?_
        split at hi
        · exact List.mem_of_mem_filter hi
        · exact hi

/-- Dropping a blank text keeps a forest. -/
theorem dropBlank (h : d.Forest) (id : Option Nat) : (d.dropBlank id).Forest := by
  unfold Document.dropBlank
  split
  · split
    · exact h.detach _
    · exact h
  · exact h

/-- A sequence of changes that each keep a forest keeps it. -/
theorem foldl {α : Type} {f : Document → α → Document}
    (hf : ∀ {d : Document}, d.Forest → ∀ a, (f d a).Forest) (h : d.Forest) (as : List α) :
    (as.foldl f d).Forest := by
  induction as generalizing d with
  | nil => exact h
  | cons a rest ih => exact ih (hf h a)

/-- Trimming keeps the forest. -/
theorem trimBlanks (h : d.Forest) : d.trimBlanks.Forest :=
  foldl (fun h _ => (h.dropBlank _).dropBlank _) (foldl (fun h id => h.dropBlank (some id)) h _) _

/-- A document with the same tree is a forest too. -/
theorem congr (h : d.Forest) (htree : d.SameTree d') : d'.Forest := by
  refine ⟨?_, ?_, ?_, ?_⟩
  · rw [htree.parents, htree.size, h.table]
  · intro id p
    rw [parent?, htree.parents, htree.children]
    exact h.parent_iff id p
  · intro p
    rw [htree.children]
    exact h.nodup p
  · intro p id hid
    rw [htree.children] at hid
    rw [htree.size]
    exact h.forward p id hid

end Forest

/-- **The whole run.**  Every run of changes makes a forest. -/
theorem Edited.forest (h : d.Edited) : d.Forest := by
  induction h with
  | empty => exact .empty
  | append _ hp hn ih => exact ih.append hp hn
  | detach _ id ih => exact ih.detach id
  | trim _ ih => exact ih.trimBlanks

/-! ### The walk -/

/-- What is below a node: each child, and behind it what is below that. -/
theorem Forward.descendants_eq (h : d.Forward) (id : Nat) :
    d.descendants id = (d.children id).flatMap fun child => child :: d.descendants child := by
  rw [descendants, ← below_succ h d.size id (by omega)]
  rfl

/-- A stack of nodes is walked through one by one, if each of them is. -/
theorem traverses_append {ids stack listed : List Nat}
    (hids : ∀ id ∈ ids, ∀ {stack listed}, d.Traverses stack listed →
      d.Traverses (id :: stack) (id :: d.descendants id ++ listed))
    (hstack : d.Traverses stack listed) :
    d.Traverses (ids ++ stack) ((ids.flatMap fun id => id :: d.descendants id) ++ listed) := by
  induction ids with
  | nil => exact hstack
  | cons id rest ih =>
      obtain ⟨hfirst, hrest⟩ := List.forall_mem_cons.mp hids
      rw [List.flatMap_cons, List.append_assoc]
      exact hfirst (ih hrest)

/-- A node on the stack is listed with all that is below it before the rest of the stack is. -/
theorem Forward.traverses_cons (h : d.Forward) (id : Nat) {stack listed : List Nat}
    (hstack : d.Traverses stack listed) :
    d.Traverses (id :: stack) (id :: d.descendants id ++ listed) := by
  -- the children have greater numbers, and all numbers are below the size
  induction hdistance : d.size - id using Nat.strong_induction_on generalizing id stack listed with
  | _ distance ih =>
      rw [h.descendants_eq, List.cons_append]
      refine .next (traverses_append ?_ hstack)
      intro child hchild stack listed hstack
      have := h id child hchild
      exact ih (d.size - child) (by omega) child hstack rfl

/-- The walk with a stack has one outcome at most. -/
theorem Traverses.unique {stack listed listed' : List Nat} (h : d.Traverses stack listed)
    (h' : d.Traverses stack listed') : listed' = listed := by
  induction h generalizing listed' with
  | done =>
      cases h'
      rfl
  | next _ ih =>
      cases h' with
      | next rest => rw [ih rest]

/-- The walk with a stack ends with the nodes below a node, and nothing else. -/
theorem Forward.traverses_iff (h : d.Forward) (id : Nat) (listed : List Nat) :
    d.Traverses (d.children id) listed ↔ listed = d.descendants id := by
  have hends : d.Traverses (d.children id) (d.descendants id) := by
    rw [h.descendants_eq]
    simpa using traverses_append (fun child _ => h.traverses_cons child) (.done (d := d))
  exact ⟨hends.unique, fun heq => heq ▸ hends⟩

namespace Forest

/-- A node is attached if the chain of its parents reaches the root. -/
theorem mem_walk_iff (h : d.Forest) (id : Nat) : id ∈ d.walk ↔ id = 0 ∨ d.Above id 0 := by
  constructor
  · intro hid
    induction id using Nat.strong_induction_on with
    | _ id ih =>
        obtain hzero | ⟨p, hp, hchild⟩ := mem_walk_cases hid
        · exact .inl hzero
        · have hparent := (h.parent_iff id p).mpr hchild
          obtain rfl | habove := ih p (h.lt hparent) hp
          · exact .inr (.parent hparent)
          · exact .inr (.step hparent habove)
  · rintro (rfl | habove)
    · exact List.mem_cons_self
    · generalize hroot : 0 = root at habove
      induction habove with
      | parent hparent =>
          subst hroot
          exact mem_walk_of_child h.forward List.mem_cons_self ((h.parent_iff _ _).mp hparent)
      | step hparent _ ih =>
          exact mem_walk_of_child h.forward (ih hroot) ((h.parent_iff _ _).mp hparent)

/-- The parent of a node below another is that one or below it. -/
theorem exists_parent (h : d.Forest) {id i : Nat} (hi : i ∈ d.descendants id) :
    ∃ p ∈ id :: d.descendants id, d.parent? i = some p := by
  rcases mem_below_cases hi with hchild | ⟨p, hp, hchild⟩
  · exact ⟨id, List.mem_cons_self, (h.parent_iff i id).mpr hchild⟩
  · exact ⟨p, List.mem_cons_of_mem _ hp, (h.parent_iff i p).mpr hchild⟩

/-- A child of a node is not below another child. -/
theorem notMem_descendants (h : d.Forest) {p a b : Nat} (ha : a ∈ d.children p)
    (hb : b ∈ d.children p) : a ∉ d.descendants b := by
  intro hab
  obtain ⟨q, hq, hparent⟩ := h.exists_parent hab
  obtain rfl : q = p := Option.some.inj (hparent.symm.trans ((h.parent_iff a p).mpr ha))
  have hlt := (h.forward q b hb).1
  rcases List.mem_cons.mp hq with rfl | hq
  · exact Nat.lt_irrefl _ hlt
  · exact Nat.lt_asymm hlt (lt_of_mem_below h.forward hq).1

/-- What is below two children of a node is below one of them only. -/
theorem child_unique (h : d.Forest) {p a b i : Nat} (ha : a ∈ d.children p)
    (hb : b ∈ d.children p) (hia : i ∈ a :: d.descendants a)
    (hib : i ∈ b :: d.descendants b) : a = b := by
  induction i using Nat.strong_induction_on with
  | _ i ih =>
      rcases List.mem_cons.mp hia with rfl | hia
      · rcases List.mem_cons.mp hib with heq | hib
        · exact heq
        · exact absurd hib (h.notMem_descendants ha hb)
      · rcases List.mem_cons.mp hib with rfl | hib
        · exact absurd hia (h.notMem_descendants hb ha)
        · obtain ⟨q, hqa, hq⟩ := h.exists_parent hia
          obtain ⟨q', hqb, hq'⟩ := h.exists_parent hib
          obtain rfl : q = q' := Option.some.inj (hq.symm.trans hq')
          exact ih q (h.lt hq) hqa hqb

/-- No node is twice among the descendants of one. -/
theorem nodup_descendants (h : d.Forest) (id : Nat) : (d.descendants id).Nodup := by
  induction hdistance : d.size - id using Nat.strong_induction_on generalizing id with
  | _ distance ih =>
      rw [h.forward.descendants_eq, List.nodup_flatMap]
      refine ⟨?_, ?_⟩
      · intro child hchild
        have := h.forward id child hchild
        refine List.nodup_cons.mpr ⟨?_, ih (d.size - child) (by omega) child rfl⟩
        intro hself
        exact Nat.lt_irrefl _ (lt_of_mem_below h.forward hself).1
      · refine (h.nodup id).pairwise_of_forall_ne ?_
        intro a ha b hb hne i hia hib
        exact hne (h.child_unique ha hb hia hib)

/-- No node is listed twice. -/
theorem nodup_walk (h : d.Forest) : d.walk.Nodup := by
  refine List.nodup_cons.mpr ⟨?_, h.nodup_descendants 0⟩
  intro hroot
  exact Nat.lt_irrefl _ (lt_of_mem_below h.forward hroot).1

/-! ### Siblings -/

/-- The index of a node is where it stands among the children of its parent. -/
theorem index?_eq_some_iff (h : d.Forest) {id p i : Nat} (hp : d.parent? id = some p) :
    d.index? id = some i ↔ (d.children p)[i]? = some id := by
  simp only [index?, hp, List.findIdx?_eq_some_iff_getElem, List.getElem?_eq_some_iff, beq_iff_eq]
  constructor
  · rintro ⟨hi, heq, -⟩
    exact ⟨hi, heq⟩
  · rintro ⟨hi, heq⟩
    refine ⟨hi, heq, ?_⟩
    intro j hj hother
    have := (h.nodup p).getElem_inj_iff.mp (hother.trans heq.symm)
    omega

/-- The sibling of a node stands so many places behind it among the children of their parent. -/
theorem sibling?_eq_some_iff (h : d.Forest) {id other : Nat} {offset : Int} :
    d.sibling? id offset = some other ↔ ∃ (p i j : Nat), d.parent? id = some p ∧
      (d.children p)[i]? = some id ∧ (j : Int) = i + offset ∧ (d.children p)[j]? = some other := by
  cases hp : d.parent? id with
  | none => simp [sibling?, hp]
  | some p =>
      obtain ⟨i, hi, hid⟩ := List.getElem_of_mem ((h.parent_iff id p).mp hp)
      have hindex := (h.index?_eq_some_iff hp).mpr (List.getElem?_eq_some_iff.mpr ⟨hi, hid⟩)
      have hplace := (h.index?_eq_some_iff hp).mp hindex
      simp only [sibling?, hp, hindex]
      constructor
      · intro hsome
        split at hsome
        · simp at hsome
        · exact ⟨p, i, (i + offset).toNat, rfl, hplace, by omega, hsome⟩
      · rintro ⟨q, i', j, hq, hi', hj, hother⟩
        obtain rfl : p = q := Option.some.inj hq
        have := hindex.symm.trans ((h.index?_eq_some_iff hp).mpr hi')
        simp only [Option.some.injEq] at this
        subst this
        rw [if_neg (by omega), ← hj, Int.toNat_natCast]
        exact hother

/-- Going to a sibling is undone by going back as many places. -/
theorem sibling?_neg (h : d.Forest) {id other : Nat} {offset : Int}
    (hother : d.sibling? id offset = some other) :
    d.sibling? other (-offset) = some id ∧ d.parent? other = d.parent? id := by
  obtain ⟨p, i, j, hp, hi, hj, hplace⟩ := h.sibling?_eq_some_iff.mp hother
  have hparent := (h.parent_iff other p).mpr (List.mem_of_getElem? hplace)
  exact ⟨h.sibling?_eq_some_iff.mpr ⟨p, j, i, hparent, hplace, by omega, hi⟩, hparent.trans hp.symm⟩

end Forest

/-- **Documents are forests.**  Whatever nodes are added, cut off and trimmed, in any order: a node
has a parent exactly if it is among that one's children, no child is listed twice, parents come
before their children, and the root has no parent.  The walk with a stack ends and lists the nodes
below a node, each child before what is below it; the walk of the document lists exactly the nodes
whose parents lead to the root, each once; and going to a sibling can be undone. -/
theorem Edited.forest_laws (h : d.Edited) :
    (∀ id p, d.parent? id = some p ↔ id ∈ d.children p) ∧ (∀ p, (d.children p).Nodup) ∧
      (∀ id p, d.parent? id = some p → p < id) ∧ d.parent? 0 = none ∧
      (∀ id listed, d.Traverses (d.children id) listed ↔ listed = d.descendants id) ∧
      (∀ id, d.descendants id =
        (d.children id).flatMap fun child => child :: d.descendants child) ∧
      (∀ id, id ∈ d.walk ↔ id = 0 ∨ d.Above id 0) ∧ d.walk.Nodup ∧
      ∀ id other offset, d.sibling? id offset = some other →
        d.sibling? other (-offset) = some id ∧ d.parent? other = d.parent? id := by
  have hforest := h.forest
  exact ⟨hforest.parent_iff, hforest.nodup, fun _ _ => hforest.lt, hforest.root,
    hforest.forward.traverses_iff, hforest.forward.descendants_eq, hforest.mem_walk_iff,
    hforest.nodup_walk, fun _ _ _ => hforest.sibling?_neg⟩

/-- A paragraph that starts with a blank, from which an element was cut off before it got its
text. -/
def prunedDocument : Document :=
  let d := (Document.empty.append 0 (.ofElement { name := "p" })).append 1 (.ofText " ")
  let d := ((d.append 1 (.ofElement { name := "b" })).detach 3).append 3 (.ofText "lost")
  ((d.append 1 (.ofElement { name := "i" })).append 1 (.ofComment "kept")).trimBlanks

theorem Edited.forest_laws_pruned :
    let d := prunedDocument
    d.Edited ∧ d.walk = [0, 1, 5, 6] ∧ d.Traverses (d.children 0) [1, 5, 6] ∧ d.walk.Nodup ∧
      ¬ d.Above 4 0 ∧ d.sibling? 5 1 = some 6 ∧ d.sibling? 6 (-1) = some 5 ∧
      (∀ id p, d.parent? id = some p ↔ id ∈ d.children p) ∧ d.parent? 0 = none := by
  intro d
  have hedited : d.Edited :=
    .trim (.append (.append (.append (.detach (.append (.append (.append .empty
      (by decide) rfl) (by decide) rfl) (by decide) rfl) 3) (by decide) rfl) (by decide) rfl)
      (by decide) rfl)
  have hwalk : d.walk = [0, 1, 5, 6] := by decide +kernel
  have hsibling : d.sibling? 5 1 = some 6 := by decide +kernel
  obtain ⟨hparent, -, -, hroot, htraverses, -, hattached, hnodup, hback⟩ :=
    Edited.forest_laws hedited
  refine ⟨hedited, hwalk, ?_, hnodup, ?_, hsibling, (hback 5 6 1 hsibling).1, hparent, hroot⟩
  · exact (htraverses 0 _).mpr (by decide +kernel)
  · intro habove
    have hlost := (hattached 4).mpr (.inr habove)
    rw [hwalk] at hlost
    simp at hlost

end Stencil.Markup.Document

namespace Stencil

open Stencil.Markup
open Stencil.Script (Language)

/-! ### Documents that are read -/

namespace Markup.Builder

variable {b : Builder}

/-- **One step.**  A token keeps the forest. -/
theorem Ordered.forest_step (ho : b.Ordered) (h : b.document.Forest) (c : Context) {t : Token}
    (ht : t.lexeme.Named) : (b.step c t).document.Forest := by
  have hmoves := b.step_moves c ht
  generalize b.step c t = b' at hmoves ⊢
  cases hmoves with
  | add hn hname => exact h.append ho.shape.parent_lt hn
  | push hn hname htype => exact h.append ho.shape.parent_lt hn
  | change hdocument hchildren htype hstack =>
      rw [hdocument]
      exact h.congr (Document.sameTree_update hchildren)
  | same hdocument hstack =>
      rw [hdocument]
      exact h

/-- **The whole run.** -/
theorem Ordered.forest_run (ho : b.Ordered) (h : b.document.Forest) (c : Context)
    {tokens : List Token} (ht : ∀ t ∈ tokens, t.lexeme.Named) :
    (tokens.foldl (Builder.step c) b).document.Forest := by
  induction tokens generalizing b with
  | nil => exact h
  | cons t rest ih =>
      obtain ⟨hfirst, hrest⟩ := List.forall_mem_cons.mp ht
      exact ih (ho.step c hfirst) (ho.forest_step h c hfirst) hrest

end Markup.Builder

/-- A parsed document is a forest. -/
theorem Markup.parse_forest (s : Settings) (source : String) : (parse s source).1.Forest := by
  have hbuilt : (built s source).document.Forest :=
    (Builder.ordered_empty _).forest_run .empty _ (scan_named source)
  rw [parse_document]
  split
  · exact hbuilt.trimBlanks
  · exact hbuilt

/-- A template is a forest after all passes. -/
theorem parseTemplate_forest {lang : Language} {o : Options} {source : String}
    (h : (parseTemplate lang o source).error = none) :
    (parseTemplate lang o source).document.Forest :=
  (parse_forest o.markup source).congr (parseTemplate_sameTree h)

end Stencil
