import Stencil.Proofs.Shape

/-!
# The walk of a growing document

The walk lists a node before everything below it, and what is below it child by child.  A document
that is read from tokens grows only at its right edge: at the last child of the root, the last child
of that one, and so on.  There, a new node is the last one of the walk (`walk_append`).
-/

namespace Stencil.Markup.Document

/-- The second node is reached from the first by going to the last child again and again. -/
inductive Edge (d : Document) : Nat → Nat → Prop
  | refl (id : Nat) : Edge d id id
  | step {id last p : Nat} (hlast : (d.children id).getLast? = some last) (tail : Edge d last p) :
      Edge d id p

/-- Children come after their parents and before the end of the table. -/
def Forward (d : Document) : Prop := ∀ id, ∀ child ∈ d.children id, id < child ∧ child < d.size

/-- The children end in the last one. -/
theorem children_eq_of_getLast? {d : Document} {id last : Nat}
    (h : (d.children id).getLast? = some last) :
    d.children id = (d.children id).dropLast ++ [last] := by
  obtain ⟨front, hfront⟩ := List.getLast?_eq_some_iff.mp h
  rw [hfront, List.dropLast_concat]

/-- What is below a node depends only on the children of the nodes there. -/
theorem below_congr {d d' : Document} (levels id : Nat) (hid : d'.children id = d.children id)
    (h : ∀ i ∈ d.below levels id, d'.children i = d.children i) :
    d'.below levels id = d.below levels id := by
  induction levels generalizing id with
  | zero => rfl
  | succ levels ih =>
      simp only [below, hid] at h ⊢
      apply List.flatMap_congr
      intro child hchild
      have hbelow : ∀ i ∈ child :: d.below levels child, d'.children i = d.children i :=
        fun i hi => h i (List.mem_flatMap.mpr ⟨child, hchild, hi⟩)
      rw [ih child (hbelow child List.mem_cons_self) fun i hi => hbelow i (List.mem_cons_of_mem _ hi)]

/-- More levels than there are nodes behind a node make no difference. -/
theorem below_succ {d : Document} (h : d.Forward) (levels id : Nat)
    (hlevels : d.size ≤ id + levels + 1) : d.below (levels + 1) id = d.below levels id := by
  induction levels generalizing id with
  | zero =>
      have hnone : d.children id = [] := by
        apply List.eq_nil_iff_forall_not_mem.mpr
        intro child hchild
        have := h id child hchild
        omega
      simp [below, hnone]
  | succ levels ih =>
      rw [below, below]
      apply List.flatMap_congr
      intro child hchild
      have hchild := (h id child hchild).1
      rw [ih child (by omega)]

/-- What is below a node comes after it. -/
theorem lt_of_mem_below {d : Document} (h : d.Forward) {levels id i : Nat}
    (hi : i ∈ d.below levels id) : id < i ∧ i < d.size := by
  induction levels generalizing id with
  | zero => simp [below] at hi
  | succ levels ih =>
      obtain ⟨child, hchild, hmem⟩ := List.mem_flatMap.mp hi
      have hforward := h id child hchild
      rcases List.mem_cons.mp hmem with rfl | hmem
      · exact hforward
      · have := ih hmem
        omega

/-- A node on the edge of another is not in front of it. -/
theorem Edge.le {d : Document} (h : d.Forward) {id p : Nat} (he : d.Edge id p) : id ≤ p := by
  induction he with
  | refl => exact Nat.le_refl _
  | step hlast _ ih =>
      have := h _ _ (List.mem_of_getLast? hlast)
      omega

/-- What is on the edge of a node on the edge of another is on the edge of that one. -/
theorem Edge.trans {d : Document} {a b c : Nat} (h : d.Edge a b) (h' : d.Edge b c) : d.Edge a c := by
  induction h with
  | refl => exact h'
  | step hlast _ ih => exact .step hlast (ih h')

/-- The last child of a node at the edge is at the edge. -/
theorem Edge.last {d : Document} {id p last : Nat} (h : d.Edge id p)
    (hlast : (d.children p).getLast? = some last) : d.Edge id last :=
  h.trans (.step hlast (.refl last))

/-- A node at the edge is found on the walk. -/
theorem Edge.mem_below {d : Document} (h : d.Forward) (levels : Nat) {id p : Nat}
    (he : d.Edge id p) (hlevels : d.size ≤ id + levels + 1) : p ∈ id :: d.below levels id := by
  induction he generalizing levels with
  | refl => exact List.mem_cons_self
  | @step id last p hlast _ ih =>
      have hmem := List.mem_of_getLast? hlast
      have hforward := h id last hmem
      cases levels with
      | zero => omega
      | succ levels =>
          have hp := ih levels (by omega)
          exact List.mem_cons_of_mem _ (List.mem_flatMap.mpr ⟨last, hmem, hp⟩)

/-- A node without children at the edge is the last one on the walk. -/
theorem Edge.getLast?_below {d : Document} (h : d.Forward) (levels : Nat) {id p : Nat}
    (he : d.Edge id p) (hleaf : d.children p = []) (hlevels : d.size ≤ id + levels + 1) :
    (id :: d.below levels id).getLast? = some p := by
  induction he generalizing levels with
  | refl id =>
      have hnone : d.below levels id = [] := by
        cases levels <;> simp [Document.below, hleaf]
      simp [hnone]
  | @step id last p hlast _ ih =>
      have hforward := h id last (List.mem_of_getLast? hlast)
      cases levels with
      | zero => omega
      | succ levels =>
          have hp := ih levels hleaf (by omega)
          rw [Document.below, children_eq_of_getLast? hlast, List.flatMap_append,
            List.flatMap_singleton, ← List.cons_append, List.getLast?_append, hp, Option.some_or]

section Append

variable {d : Document} {p : Nat} {n : Node}

/-- A new node without children has none. -/
theorem children_append_self (hp : p < d.size) (hn : n.children = []) :
    (d.append p n).children d.size = [] := by
  rw [children, node_append_self hp, hn]

/-- A new node is the last child of its parent. -/
theorem children_append_parent (hp : p < d.size) :
    (d.append p n).children p = d.children p ++ [d.size] := by
  rw [children, node_append_parent hp]

/-- The other nodes keep their children. -/
theorem children_append_of_ne {i : Nat} (hi : i < d.size) (hne : i ≠ p) :
    (d.append p n).children i = d.children i := by
  rw [children, node_append_of_ne n hi hne, children]

/-- Adding a node elsewhere changes nothing below a node. -/
theorem below_append_of_notMem (h : d.Forward) {levels id : Nat} (hid : id < d.size) (hne : id ≠ p)
    (hp : p ∉ d.below levels id) : (d.append p n).below levels id = d.below levels id := by
  apply below_congr
  · exact children_append_of_ne hid hne
  · intro i hi
    refine children_append_of_ne (lt_of_mem_below h hi).2 ?_
    rintro rfl
    exact hp hi

/-- **A node added at the edge comes last**, among all that is below a node on the way to it. -/
theorem below_append (h : d.Forward) (hp : p < d.size) (hn : n.children = []) (levels : Nat)
    {id : Nat} (he : d.Edge id p) (hlevels : d.size ≤ id + levels + 1)
    (hnodup : (d.below levels id).Nodup) :
    (d.append p n).below (levels + 1) id = d.below levels id ++ [d.size] := by
  induction he generalizing levels with
  | refl p =>
      have hnew : (d.append p n).below levels d.size = [] := by
        cases levels <;> simp [below, children_append_self hp hn]
      have hold : ∀ child ∈ d.children p,
          (d.append p n).below levels child = d.below levels child := by
        intro child hchild
        have hforward := h p child hchild
        refine below_append_of_notMem h hforward.2 (by omega) fun hmem => ?_
        have := lt_of_mem_below h hmem
        omega
      rw [← below_succ h _ _ hlevels, below, below, children_append_parent hp, List.flatMap_append,
        List.flatMap_singleton, hnew]
      congr 1
      apply List.flatMap_congr
      intro child hchild
      rw [hold child hchild]
  | @step id last p hlast tail ih =>
      have hmem := List.mem_of_getLast? hlast
      have hforward := h id last hmem
      have hle := tail.le h
      cases levels with
      | zero => omega
      | succ levels =>
          have hsplit := children_eq_of_getLast? hlast
          have hfront : ∀ child ∈ (d.children id).dropLast, child ∈ d.children id :=
            fun child => List.mem_of_mem_dropLast
          rw [below, hsplit, List.flatMap_append, List.flatMap_singleton] at hnodup
          obtain ⟨-, hlastNodup, hdisjoint⟩ := List.nodup_append.mp hnodup
          have hbelow := ih hp levels (by omega) (List.nodup_cons.mp hlastNodup).2
          have hpmem := tail.mem_below h levels (by omega)
          -- the way to the new node leads through the last child only
          have hothers : ∀ child ∈ (d.children id).dropLast,
              (d.append p n).below (levels + 1) child = d.below levels child := by
            intro child hchild
            have hforward' := h id child (hfront child hchild)
            have hnot : p ∉ child :: d.below levels child := fun hp' =>
              hdisjoint p (List.mem_flatMap.mpr ⟨child, hchild, hp'⟩) p hpmem rfl
            have hsucc := below_succ h levels child (by omega)
            rw [below_append_of_notMem h hforward'.2, hsucc]
            · rintro rfl
              exact hnot List.mem_cons_self
            · rw [hsucc]
              exact fun hp' => hnot (List.mem_cons_of_mem _ hp')
          rw [below, children_append_of_ne (by omega) (by omega), below, hsplit, List.flatMap_append,
            List.flatMap_append, List.flatMap_singleton, List.flatMap_singleton, hbelow,
            List.append_assoc, List.cons_append]
          congr 1
          apply List.flatMap_congr
          intro child hchild
          rw [hothers child hchild]

/-- A node added at the right edge of a document is the last one on its walk. -/
theorem walk_append (h : d.Forward) (hp : p < d.size) (hn : n.children = []) (he : d.Edge 0 p)
    (hnodup : d.walk.Nodup) : (d.append p n).walk = d.walk ++ [d.size] := by
  rw [walk, walk, descendants, descendants, size_append,
    below_append h hp hn d.size he (by omega) (List.nodup_cons.mp hnodup).2, List.cons_append]

/-- Where nothing is added, the edge stays. -/
theorem Edge.append (h : d.Forward) {id q : Nat} (he : d.Edge id q) (hq : q ≤ p) :
    (d.append p n).Edge id q := by
  induction he with
  | refl => exact .refl _
  | @step id last q hlast tail ih =>
      have hforward := h id last (List.mem_of_getLast? hlast)
      have hle := tail.le h
      refine .step ?_ (ih hq)
      rw [children_append_of_ne (by omega) (by omega)]
      exact hlast

/-- The added node is at the edge. -/
theorem Edge.append_self (h : d.Forward) {id : Nat} (he : d.Edge id p) (hp : p < d.size) :
    (d.append p n).Edge id d.size := by
  refine (he.append h (Nat.le_refl p)).last ?_
  rw [children_append_parent hp, List.getLast?_concat]

end Append

section Update

variable {d : Document} {id : Nat} {f : Node → Node}

/-- A change that keeps the children of its node keeps all children. -/
theorem children_update (hf : (f (d.node id)).children = (d.node id).children) (i : Nat) :
    (d.update id f).children i = d.children i := by
  unfold children
  rcases node_update_cases d id f i with hnode | ⟨rfl, hnode⟩
  · rw [hnode]
  · rw [hnode, hf]

/-- A change that keeps the children of its node keeps the order of the walk. -/
theorem walk_update (hf : (f (d.node id)).children = (d.node id).children) :
    (d.update id f).walk = d.walk := by
  rw [walk, walk, descendants, descendants, size_update,
    below_congr _ _ (children_update hf 0) fun i _ => children_update hf i]

/-- A change that keeps the children of its node keeps the edges. -/
theorem Edge.update (hf : (f (d.node id)).children = (d.node id).children) {a b : Nat}
    (he : d.Edge a b) : (d.update id f).Edge a b := by
  induction he with
  | refl => exact .refl _
  | step hlast _ ih => exact .step (by rw [children_update hf]; exact hlast) ih

end Update

end Stencil.Markup.Document
