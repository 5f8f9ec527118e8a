import Stencil.Proofs.Ruled

/-!
# What trimming leaves

After trimming, no blank text stands at the top of a document (`trimBlanks_top`) nor at an edge of an
element outside of preformatted ones (`trimBlanks_clipped`).  Dropping one blank text at an edge is
enough where no text stands beside another one.
-/

namespace Stencil.Markup

namespace Document

variable {d d' : Document}

/-- No blank text stands at an edge of the node. -/
structure Clipped (d : Document) (p : Nat) : Prop where
  head : ∀ i ∈ (d.children p).head?, (d.node i).isBlankText = false
  last : ∀ i ∈ (d.children p).getLast?, (d.node i).isBlankText = false

theorem isBlankText_of_not_isText {n : Node} (h : n.isText = false) : n.isBlankText = false := by
  rw [Bool.eq_false_iff]
  intro hblank
  rw [isText_of_isBlankText hblank] at h
  simp at h

theorem Prunes.isBlankText_eq (h : d.Prunes d') (i : Nat) :
    (d'.node i).isBlankText = (d.node i).isBlankText := by
  obtain ⟨children, hnode⟩ := h.node i
  rw [hnode]
  rfl

/-- Dropping a child changes the children of its parent only. -/
theorem children_dropBlank (h : d.Linked) {p id : Nat} (hid : id ∈ d.children p) (q : Nat) :
    (d.dropBlank (some id)).children q =
      if q = p ∧ (d.node id).isBlankText = true then (d.children q).filter (· != id)
      else d.children q := by
  simp only [dropBlank]
  by_cases hblank : (d.node id).isBlankText = true
  · simp only [hblank, and_true, if_true]
    exact children_detach (h.child p id hid) q
  · simp [hblank]

/-- Behind a text at the start there is no other. -/
theorem head_filter_apart {first : Nat} {rest : List Nat} (h : (first :: rest).IsChain d.Apart)
    (hfirst : (d.node first).isText = true) :
    ∀ i ∈ ((first :: rest).filter (· != first)).head?, (d.node i).isText = false := by
  intro i hi
  rw [List.filter_cons_of_neg (by simp)] at hi
  cases rest with
  | nil => simp at hi
  | cons next more =>
      have hnext : (d.node next).isText = false := by
        rw [Bool.eq_false_iff]
        exact fun htext => (List.isChain_cons_cons.mp h).1 ⟨hfirst, htext⟩
      have hne : next ≠ first := by
        rintro rfl
        rw [hfirst] at hnext
        simp at hnext
      rw [List.filter_cons_of_pos (by simpa using hne), List.head?_cons, Option.mem_def,
        Option.some.injEq] at hi
      rw [← hi, hnext]

/-- Before a text at the end there is no other. -/
theorem getLast_filter_apart {front : List Nat} {last : Nat} (h : (front ++ [last]).IsChain d.Apart)
    (hlast : (d.node last).isText = true) :
    ∀ i ∈ ((front ++ [last]).filter (· != last)).getLast?, (d.node i).isText = false := by
  intro i hi
  rw [List.filter_append, List.filter_cons_of_neg (by simp), List.filter_nil, List.append_nil] at hi
  rcases List.eq_nil_or_concat' front with rfl | ⟨more, before, rfl⟩
  · simp at hi
  · have hbefore : (d.node before).isText = false := by
      rw [Bool.eq_false_iff]
      intro htext
      exact (List.isChain_append.mp h).2.2 before (by simp) last (by simp) ⟨htext, hlast⟩
    have hne : before ≠ last := by
      rintro rfl
      rw [hlast] at hbefore
      simp at hbefore
    rw [List.filter_append, List.filter_cons_of_pos (by simpa using hne), List.filter_nil,
      List.getLast?_concat, Option.mem_def, Option.some.injEq] at hi
    rw [← hi, hbefore]

/-- No blank text is first once the first child has been dropped if it was one. -/
theorem Spaced.head_dropBlank (h : d.Spaced) (hl : d.Linked) (p : Nat) :
    ∀ i ∈ ((d.dropBlank (d.children p).head?).children p).head?, (d.node i).isBlankText = false := by
  cases hchildren : d.children p with
  | nil =>
      intro i hi
      simp [Document.dropBlank, hchildren] at hi
  | cons first rest =>
      have hcut := children_dropBlank hl (show first ∈ d.children p by simp [hchildren]) p
      rw [List.head?_cons, hcut]
      split
      · next hblank =>
          have hbeside := h p
          rw [hchildren] at hbeside ⊢
          intro i hi
          exact isBlankText_of_not_isText
            (head_filter_apart hbeside (isText_of_isBlankText hblank.2) i hi)
      · next hblank =>
          intro i hi
          rw [hchildren, List.head?_cons, Option.mem_def, Option.some.injEq] at hi
          rw [← hi]
          simpa using hblank

/-- No blank text is first or last once the last child has been dropped if it was one, and the first
child is not. -/
theorem Spaced.clipped_dropBlank (h : d.Spaced) (hl : d.Linked) {p : Nat}
    (hhead : ∀ i ∈ (d.children p).head?, (d.node i).isBlankText = false) :
    (d.dropBlank (d.children p).getLast?).Clipped p := by
  have hprunes := prunes_dropBlank d (d.children p).getLast?
  have hsame := hprunes.isBlankText_eq
  rcases List.eq_nil_or_concat' (d.children p) with hchildren | ⟨front, last, hchildren⟩
  · refine ⟨?_, ?_⟩ <;>
    · intro i hi
      simp [Document.dropBlank, hchildren] at hi
  · have hcut := children_dropBlank hl (show last ∈ d.children p by simp [hchildren]) p
    have hfinal : (d.children p).getLast? = some last := by rw [hchildren, List.getLast?_concat]
    rw [hfinal] at hprunes hsame ⊢
    by_cases hblank : (d.node last).isBlankText = true
    · rw [if_pos ⟨rfl, hblank⟩] at hcut
      refine ⟨?_, ?_⟩
      · intro i hi
        rw [hcut] at hi
        rw [hsame]
        cases hids : d.children p with
        | nil => simp [hids] at hi
        | cons first rest =>
            have hfirst := hhead first (by simp [hids])
            have hne : first ≠ last := by
              rintro rfl
              rw [hblank] at hfirst
              simp at hfirst
            rw [hids, List.filter_cons_of_pos (by simpa using hne), List.head?_cons, Option.mem_def,
              Option.some.injEq] at hi
            rw [← hi, hfirst]
      · intro i hi
        have hbeside := h p
        rw [hchildren] at hbeside
        rw [hcut, hchildren] at hi
        rw [hsame]
        exact isBlankText_of_not_isText
          (getLast_filter_apart hbeside (isText_of_isBlankText hblank) i hi)
    · rw [if_neg (fun hyes => hblank hyes.2)] at hcut
      refine ⟨?_, ?_⟩
      · intro i hi
        rw [hcut] at hi
        rw [hsame]
        exact hhead i hi
      · intro i hi
        rw [hcut, hfinal, Option.mem_def, Option.some.injEq] at hi
        rw [hsame, ← hi]
        simpa using hblank

theorem prunes_trimEdges (d : Document) (p : Nat) : d.Prunes (d.trimEdges p) :=
  (prunes_dropBlank d _).trans (prunes_dropBlank _ _)

theorem keeps_trimEdges (d : Document) (p : Nat) : d.Keeps (d.trimEdges p) :=
  (keeps_dropBlank d _).trans (keeps_dropBlank _ _)

theorem Spaced.trimEdges (h : d.Spaced) (p : Nat) : (d.trimEdges p).Spaced :=
  (h.dropBlank _).dropBlank _

/-- Dropping the first child and then the last one, where they are blank, leaves no blank text at the
edges. -/
theorem Spaced.clipped_trimEdges (h : d.Spaced) (hl : d.Linked) (p : Nat) :
    (d.trimEdges p).Clipped p :=
  (h.dropBlank _).clipped_dropBlank ((prunes_dropBlank d _).linked hl) fun i hi => by
    rw [(prunes_dropBlank d _).isBlankText_eq]
    exact h.head_dropBlank hl p i hi

theorem children_dropBlank_of_ne (h : d.Linked) {p q : Nat} (hne : q ≠ p) {id : Option Nat}
    (hid : ∀ i ∈ id, i ∈ d.children p) : (d.dropBlank id).children q = d.children q := by
  cases id with
  | none => rfl
  | some id => rw [children_dropBlank h (hid id rfl), if_neg fun heq => hne heq.1]

/-- What is done at the edges of a node leaves all others alone. -/
theorem children_trimEdges_of_ne (h : d.Linked) {p q : Nat} (hne : q ≠ p) :
    (d.trimEdges p).children q = d.children q := by
  have hlinked := (prunes_dropBlank d (d.children p).head?).linked h
  unfold Document.trimEdges
  rw [children_dropBlank_of_ne hlinked hne fun i hi => List.mem_of_getLast? hi,
    children_dropBlank_of_ne h hne fun i hi => List.mem_of_head? hi]

theorem Clipped.trimEdges {q : Nat} (hclipped : d.Clipped q) (h : d.Spaced) (hl : d.Linked)
    (p : Nat) : (d.trimEdges p).Clipped q := by
  by_cases hq : q = p
  · rw [hq]
    exact h.clipped_trimEdges hl p
  · have hchildren := children_trimEdges_of_ne hl hq
    have hsame := (prunes_trimEdges d p).isBlankText_eq
    refine ⟨?_, ?_⟩
    · intro i hi
      rw [hchildren] at hi
      rw [hsame]
      exact hclipped.head i hi
    · intro i hi
      rw [hchildren] at hi
      rw [hsame]
      exact hclipped.last i hi

/-- All nodes of a list are clipped once their edges have been trimmed one after another. -/
theorem Spaced.clipped_foldl (h : d.Spaced) (hl : d.Linked) (ids : List Nat) {q : Nat}
    (hq : q ∈ ids ∨ d.Clipped q) : (ids.foldl Document.trimEdges d).Clipped q := by
  induction ids generalizing d with
  | nil => exact hq.resolve_left (by simp)
  | cons p rest ih =>
      refine ih (h.trimEdges p) ((prunes_trimEdges d p).linked hl) ?_
      rcases hq with hq | hq
      · rcases List.mem_cons.mp hq with rfl | hq
        · exact .inr (h.clipped_trimEdges hl q)
        · exact .inl hq
      · exact .inr (hq.trimEdges h hl p)

/-- The blank texts of a list are below nothing once they have been dropped. -/
theorem Linked.not_isBlankText_foldl (h : d.Linked) (ids : List Nat) {p i : Nat} (hi : i ∈ ids)
    (hchild : i ∈ (ids.foldl (fun d id => d.dropBlank (some id)) d).children p) :
    (d.node i).isBlankText = false := by
  induction ids generalizing d with
  | nil => simp at hi
  | cons id rest ih =>
      have hprunes := prunes_dropBlank d (some id)
      rw [List.foldl_cons] at hchild
      rcases List.mem_cons.mp hi with rfl | hi
      · rw [Bool.eq_false_iff]
        intro hblank
        -- what is below the node at the end was so before and after the first step
        have hkeeps := keeps_foldl (fun d id => keeps_dropBlank d (some id)) rest
          (d.dropBlank (some i))
        have hbelow := hkeeps.children p hchild
        have hbefore := (keeps_dropBlank d (some i)).children p hbelow
        rw [children_dropBlank h hbefore, if_pos ⟨rfl, hblank⟩] at hbelow
        simp at hbelow
      · rw [← hprunes.isBlankText_eq]
        exact ih (hprunes.linked h) hi hchild

/-- The tags outside of preformatted ones are fewer where children were lost. -/
theorem Prunes.flowing_subset (h : d.Prunes d') (hchildren : ∀ p, d'.children p ⊆ d.children p)
    (levels id : Nat) : d'.flowing levels id ⊆ d.flowing levels id := by
  induction levels generalizing id with
  | zero => exact List.Subset.refl _
  | succ levels ih =>
      intro i hi
      simp only [flowing, List.mem_flatMap] at hi ⊢
      obtain ⟨child, hchild, hi⟩ := hi
      obtain ⟨children, hnode⟩ := h.node child
      have hsame : ((d'.node child).isTag && !(d'.node child).isPreformatted) =
          ((d.node child).isTag && !(d.node child).isPreformatted) := by
        rw [hnode]
        rfl
      rw [hsame] at hi
      refine ⟨child, hchildren id hchild, ?_⟩
      split at hi
      · next hflows =>
          rw [if_pos hflows]
          rcases List.mem_cons.mp hi with rfl | hi
          · exact List.mem_cons_self
          · exact List.mem_cons_of_mem _ (ih child hi)
      · simp at hi

/-- **No blank text is left at the top.** -/
theorem Linked.trimBlanks_top (h : d.Linked) {i : Nat} (hi : i ∈ d.trimBlanks.children 0) :
    (d.trimBlanks.node i).isBlankText = false := by
  have hkeeps := keeps_foldl keeps_trimEdges
    (((d.children 0).foldl (fun d id => d.dropBlank (some id)) d).flowing
      ((d.children 0).foldl (fun d id => d.dropBlank (some id)) d).size 0)
    ((d.children 0).foldl (fun d id => d.dropBlank (some id)) d)
  have htop := hkeeps.children 0 hi
  have hold := (keeps_foldl (fun d id => keeps_dropBlank d (some id)) (d.children 0) d).children 0 htop
  rw [(prunes_trimBlanks d).isBlankText_eq]
  exact h.not_isBlankText_foldl _ hold htop

/-- **No blank text is left at an edge of an element** outside of preformatted ones. -/
theorem Spaced.trimBlanks_clipped (h : d.Spaced) (hl : d.Linked) {p : Nat}
    (hp : p ∈ d.trimBlanks.flowing d.trimBlanks.size 0) : d.trimBlanks.Clipped p := by
  unfold Document.trimBlanks at hp ⊢
  have hspaced := h.foldl (fun d id hd => hd.dropBlank (some id)) (d.children 0)
  have hlinked := (prunes_foldl (fun d id => prunes_dropBlank d (some id)) (d.children 0) d).linked hl
  generalize (d.children 0).foldl (fun d id => d.dropBlank (some id)) d = d' at hp hspaced hlinked ⊢
  have hprunes := prunes_foldl prunes_trimEdges (d'.flowing d'.size 0) d'
  have hkeeps := keeps_foldl keeps_trimEdges (d'.flowing d'.size 0) d'
  have hold := hprunes.flowing_subset hkeeps.children _ _ hp
  rw [hkeeps.size] at hold
  exact hspaced.clipped_foldl hlinked _ (.inl hold)

end Document

end Stencil.Markup
