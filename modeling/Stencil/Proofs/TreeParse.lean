import Stencil.Proofs.RoundTrip

/-!
# Reading trees under any settings

Trees that the settings leave as they are come back from their tokens whatever the settings are: if
blank text is dropped, none may stand where it would be (`Trimmed`), and then trimming finds nothing
to do (`trimBlanks_of_trimmed`).
-/

namespace Stencil.Markup

open Stencil.Text

/-- Whether the tree is a text of blanks only. -/
def Tree.isBlank : Tree → Bool
  | .text content => content.toList.all Text.isBlank
  | _ => false

mutual

/-- No blank text stands at an edge of the element or of those inside it, preformatted ones apart. -/
def Tree.Trimmed : Tree → Prop
  | .element tag children =>
      isPreformatted tag.name = false →
        (∀ t ∈ children.head?, t.isBlank = false) ∧ (∀ t ∈ children.getLast?, t.isBlank = false) ∧
          TreesTrimmed children
  | _ => True

/-- No blank text stands at an edge of one of the elements or of those inside them. -/
def TreesTrimmed : List Tree → Prop
  | [] => True
  | t :: rest => t.Trimmed ∧ TreesTrimmed rest

end

/-- Trimming drops nothing of the trees at the top of a document. -/
structure Trimmed (ts : List Tree) : Prop where
  top : ∀ t ∈ ts, t.isBlank = false
  inside : TreesTrimmed ts

namespace Document

variable {d : Document} {p : Nat → Prop} {id : Nat} {ids : List Nat} {t : Tree} {ts : List Tree}

theorem Holds.isBlankText_eq (h : d.Holds p id t) : (d.node id).isBlankText = t.isBlank := by
  cases t with
  | text text => simp [Node.isBlankText, h.2, Tree.isBlank]
  | comment content => simp [Node.isBlankText, h.2, Tree.isBlank]
  | element tag children =>
      simp only [Holds] at h
      obtain ⟨-, ⟨e, he, -⟩, -⟩ := h
      simp [Node.isBlankText, he, Tree.isBlank]

theorem HoldsAll.map_isBlankText {ids : List Nat} {ts : List Tree} (h : d.HoldsAll p ids ts) :
    ids.map (fun id => (d.node id).isBlankText) = ts.map Tree.isBlank := by
  induction ids generalizing ts with
  | nil =>
      cases ts with
      | nil => rfl
      | cons t ts => simp [HoldsAll] at h
  | cons id ids ih =>
      cases ts with
      | nil => simp [HoldsAll] at h
      | cons t ts =>
          simp only [HoldsAll] at h
          rw [List.map_cons, List.map_cons, h.1.isBlankText_eq, ih h.2]

/-- Some tree is shown by each of the nodes. -/
theorem HoldsAll.exists_of_mem {ids : List Nat} {ts : List Tree} (h : d.HoldsAll p ids ts)
    (hid : id ∈ ids) : ∃ t ∈ ts, d.Holds p id t := by
  induction ids generalizing ts with
  | nil => simp at hid
  | cons i ids ih =>
      cases ts with
      | nil => simp [HoldsAll] at h
      | cons t ts =>
          simp only [HoldsAll] at h
          rcases List.mem_cons.mp hid with rfl | hid
          · exact ⟨t, List.mem_cons_self, h.1⟩
          · obtain ⟨u, hu, hholds⟩ := ih h.2 hid
            exact ⟨u, List.mem_cons_of_mem t hu, hholds⟩

theorem dropBlank_eq_self (h : (d.node id).isBlankText = false) : d.dropBlank (some id) = d := by
  simp [dropBlank, h]

theorem dropBlank_getLast?_eq_self (h : d.HoldsAll p ids ts)
    (hlast : ∀ t ∈ ts.getLast?, t.isBlank = false) : d.dropBlank ids.getLast? = d := by
  cases hid : ids.getLast? with
  | none => rfl
  | some id =>
      have hmap := congrArg List.getLast? h.map_isBlankText
      rw [List.getLast?_map, List.getLast?_map, hid, Option.map_some] at hmap
      obtain ⟨t, ht, hblank⟩ := Option.map_eq_some_iff.mp hmap.symm
      exact dropBlank_eq_self (hblank.symm.trans (hlast t ht))

theorem dropBlank_head?_eq_self (h : d.HoldsAll p ids ts)
    (hhead : ∀ t ∈ ts.head?, t.isBlank = false) : d.dropBlank ids.head? = d := by
  cases hid : ids.head? with
  | none => rfl
  | some id =>
      have hmap := congrArg List.head? h.map_isBlankText
      rw [List.head?_map, List.head?_map, hid, Option.map_some] at hmap
      obtain ⟨t, ht, hblank⟩ := Option.map_eq_some_iff.mp hmap.symm
      exact dropBlank_eq_self (hblank.symm.trans (hhead t ht))

theorem treesTrimmed_mem (h : TreesTrimmed ts) (ht : t ∈ ts) : t.Trimmed := by
  induction ts with
  | nil => simp at ht
  | cons u rest ih =>
      rcases List.mem_cons.mp ht with rfl | ht
      · exact h.1
      · exact ih h.2 ht

/-- There is nothing to drop at the edges of an element that shows a trimmed tree. -/
theorem trimEdges_of_trimmed {levels : Nat} (h : d.HoldsAll p (d.children id) ts)
    (htrimmed : TreesTrimmed ts) : ∀ x ∈ d.flowing levels id, d.trimEdges x = d := by
  induction levels generalizing id ts with
  | zero => simp [flowing]
  | succ levels ih =>
      intro x hx
      simp only [flowing, List.mem_flatMap] at hx
      obtain ⟨child, hchild, hx⟩ := hx
      split at hx
      · next hflows =>
          obtain ⟨t, ht, hholds⟩ := h.exists_of_mem hchild
          have htree := treesTrimmed_mem htrimmed ht
          cases t with
          | text _ => simp [Node.isTag, Node.element?, hholds.2] at hflows
          | comment _ => simp [Node.isTag, Node.element?, hholds.2] at hflows
          | element tag children =>
              simp only [Holds] at hholds
              obtain ⟨-, ⟨e, he, hshows⟩, -, hall⟩ := hholds
              have hpre : isPreformatted tag.name = false := by
                simpa [Node.isTag, Node.isPreformatted, Node.element?, he, hshows.name] using hflows
              obtain ⟨hhead, hlast, hinside⟩ := htree hpre
              rcases List.mem_cons.mp hx with rfl | hx
              · rw [trimEdges, dropBlank_head?_eq_self hall hhead,
                  dropBlank_getLast?_eq_self hall hlast]
              · exact ih hall hinside x hx
      · simp at hx

theorem foldl_eq_self {step : Document → Nat → Document} (h : ∀ id ∈ ids, step d id = d) :
    ids.foldl step d = d := by
  induction ids with
  | nil => rfl
  | cons id rest ih =>
      rw [List.foldl_cons, h id List.mem_cons_self]
      exact ih fun x hx => h x (List.mem_cons_of_mem id hx)

/-- **Trimming finds nothing to drop in a document that shows trimmed trees.** -/
theorem trimBlanks_of_trimmed (h : d.Shows ts) (htrimmed : Trimmed ts) : d.trimBlanks = d := by
  have htop : (d.children 0).foldl (fun d id => d.dropBlank (some id)) d = d := by
    apply foldl_eq_self
    intro id hid
    obtain ⟨t, ht, hholds⟩ := HoldsAll.exists_of_mem h hid
    exact dropBlank_eq_self (hholds.isBlankText_eq.trans (htrimmed.top t ht))
  rw [trimBlanks, htop]
  exact foldl_eq_self (trimEdges_of_trimmed h htrimmed.inside)

end Document

/-- **Trees come back from their tokens.**  A text that is scanned as the tokens of some trees reads
without a problem as these trees, if they are sound and the settings leave them as they are. -/
theorem parse_trees {s : Settings} {source : String} {ts : List Tree}
    (hscan : scan source = (treesTokens 0 ts, [])) (hsource : source.toList = treesChars ts)
    (hsound : TreesSound s.affix ts) (hkept : TreesKept s false ts)
    (htrimmed : s.trim = true → Trimmed ts) :
    (parse s source).2 = [] ∧ (parse s source).1.Shows ts := by
  have hadds := adds_trees (c := ⟨s, .of source⟩) ts hsound 0 {} hkept (by decide) (by simp)
    (fun _ => rfl)
  generalize hb : (treesTokens 0 ts).foldl (Builder.step ⟨s, .of source⟩) {} = b at hadds
  have hproduced : b.produced = true ∨ isSpaces source = true := by
    by_cases hnil : ts = []
    · right
      rw [isSpaces, hsource, hnil]
      rfl
    · exact .inl (hadds.produced (.inr hnil))
  have hshows : b.document.Shows ts := by
    obtain ⟨ids, hids, hholds⟩ := hadds.added
    have hroot : Builder.parent {} = 0 := rfl
    rw [hroot] at hids
    rw [Document.Shows, hids]
    exact hholds.frame (fun i _ => .refl _) fun i hi => hi.2
  have hdocument : (if s.trim then b.document.trimBlanks else b.document) = b.document := by
    split
    · next htrim => exact Document.trimBlanks_of_trimmed hshows (htrimmed htrim)
    · rfl
  have hparse : parse s source = (b.document, []) := by
    have hstack : b.stack = [] := hadds.stack
    have hdiagnostics : b.diagnostics = [] := hadds.diagnostics
    simp only [parse, hscan, List.map_nil, Builder.finish, hb, hstack, Builder.reportUnclosed,
      List.foldl_nil, hdocument]
    rcases hproduced with hproduced | hspaces
    · simp [hproduced, hdiagnostics]
    · simp [hspaces, hdiagnostics]
  rw [hparse]
  exact ⟨rfl, hshows⟩

end Stencil.Markup
