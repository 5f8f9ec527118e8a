import Stencil.Proofs.TreeParse
import Stencil.Proofs.Regular
import Stencil.Proofs.Trimming

/-!
# The trees of a regular document

A regular document shows trees (`Document.Regular.exists_shows`), and what is known of its nodes holds
of these: they could have been written (`Document.Regular.trees_scanned`), the settings leave their
texts as they are if they leave those of the nodes (`Document.Tidy.trees_kept`), and no blank text
stands at an edge if none stands at the edges of the nodes (`Document.trees_trimmed`).
-/

namespace Stencil.Markup

namespace Document

variable {s : Settings} {d : Document} {p : Nat → Prop} {id : Nat} {ids : List Nat} {t : Tree}
  {ts : List Tree}

theorem exists_holdsAll (h : ∀ id ∈ ids, ∃ t, d.Holds p id t) : ∃ ts, d.HoldsAll p ids ts := by
  induction ids with
  | nil => exact ⟨[], trivial⟩
  | cons id rest ih =>
      obtain ⟨⟨t, ht⟩, hrest⟩ := List.forall_mem_cons.mp h
      obtain ⟨ts, hts⟩ := ih hrest
      exact ⟨t :: ts, ht, hts⟩

/-- Every node below the root shows a tree, because children come after their parents. -/
theorem Regular.exists_holds (h : d.Regular s) (hforward : d.Forward)
    (hfragment : ∀ i, (d.node i).params.fragment = none) (hpos : 0 < id) (hlt : id < d.size) :
    ∃ t, d.Holds (· < d.size) id t := by
  induction hlevels : d.size - id using Nat.strong_induction_on generalizing id with
  | _ levels ih =>
      have hnode := h.nodes id
      unfold Node.Scanned at hnode
      split at hnode
      · next hcontent => exact absurd (by rw [hcontent]; rfl) (h.inner id hpos hlt)
      · next hcontent =>
          obtain ⟨-, text, rfl, -⟩ := hnode
          exact ⟨.text text, hlt, hcontent⟩
      · next content hcontent => exact ⟨.comment content, hlt, hcontent⟩
      · next e hcontent =>
          obtain ⟨tag, hshows, -⟩ := hnode
          have hbelow : ∀ child ∈ d.children id, ∃ t, d.Holds (· < d.size) child t := by
            intro child hchild
            have := hforward id child hchild
            exact ih (d.size - child) (by omega) (by omega) (by omega) rfl
          obtain ⟨children, hchildren⟩ := exists_holdsAll hbelow
          refine ⟨.element tag children, ?_⟩
          simp only [Holds]
          exact ⟨hlt, ⟨e, hcontent, hshows⟩, hfragment id, hchildren⟩

/-- **A regular document shows trees.** -/
theorem Regular.exists_shows (h : d.Regular s) (hforward : d.Forward)
    (hfragment : ∀ i, (d.node i).params.fragment = none) : ∃ ts, d.Shows ts := by
  apply exists_holdsAll
  intro child hchild
  have hchild := hforward 0 child hchild
  exact h.exists_holds hforward hfragment hchild.1 hchild.2

theorem Holds.isText_eq (h : d.Holds p id t) : (d.node id).isText = t.isText := by
  cases t with
  | text text => simp [Node.isText, h.2, Content.type, Tree.isText]
  | comment content => simp [Node.isText, h.2, Content.type, Tree.isText]
  | element tag children =>
      simp only [Holds] at h
      obtain ⟨-, ⟨e, he, -⟩, -⟩ := h
      simp [Node.isText, he, Content.type, Tree.isText]

mutual

theorem Regular.tree_scanned {id : Nat} {t : Tree} (h : d.Regular s) (ht : d.Holds p id t) :
    t.Scanned s.affix := by
  have hnode := h.nodes id
  match t with
  | .text text =>
      simp only [Node.Scanned, ht.2] at hnode
      obtain ⟨-, text', htext, hne⟩ := hnode
      cases htext
      exact hne
  | .comment content =>
      simp only [Node.Scanned, ht.2] at hnode
      exact hnode.2.2
  | .element tag children =>
      simp only [Holds] at ht
      obtain ⟨-, ⟨e, he, hshows⟩, -, hall⟩ := ht
      simp only [Node.Scanned, he] at hnode
      obtain ⟨tag', hshows', hscanned, hleaf⟩ := hnode
      obtain rfl := hshows'.unique hshows
      refine ⟨hscanned, fun hempty => ?_, Regular.trees_scanned h hall (h.beside id)⟩
      rw [Document.children, hleaf hempty] at hall
      cases children with
      | nil => rfl
      | cons _ _ => simp [HoldsAll] at hall

/-- The trees of a regular document could have been written. -/
theorem Regular.trees_scanned {ids : List Nat} {ts : List Tree} (h : d.Regular s)
    (hall : d.HoldsAll p ids ts) (hbeside : ids.IsChain d.Apart) : TreesScanned s.affix ts := by
  match ids, ts with
  | [], [] => trivial
  | id :: ids, t :: ts =>
      simp only [HoldsAll] at hall
      obtain ⟨hfirst, hrest⟩ := List.isChain_cons.mp hbeside
      refine ⟨Regular.tree_scanned h hall.1, ?_, Regular.trees_scanned h hall.2 hrest⟩
      rintro ⟨htext, hnext⟩
      match ids, ts with
      | next :: ids, u :: ts =>
          simp only [HoldsAll] at hall
          refine hfirst next rfl ⟨hall.1.isText_eq.trans htext, hall.2.1.isText_eq.trans ?_⟩
          simpa using hnext
      | [], [] => simp at hnext
      | [], _ :: _ => simp [HoldsAll] at hall
      | _ :: _, [] => simp [HoldsAll] at hall
  | [], _ :: _ => simp [HoldsAll] at hall
  | _ :: _, [] => simp [HoldsAll] at hall

end

/-- The settings leave the texts of the document as they are. -/
def Tidy (s : Settings) (d : Document) : Prop :=
  ∀ p, ∀ i ∈ d.children p, ∀ text, (d.node i).content = .text (.raw text) →
    (s.keepBlanks = true ∨ d.Sheltered i) ∨ collapse text = text

theorem sheltered_of_parent? {q : Nat} (h : d.parent? id = some q) :
    d.Sheltered id ↔ (d.node q).isPreformatted = true ∨ d.Sheltered q := by
  constructor
  · rintro ⟨r, habove, hr⟩
    obtain ⟨q', hq', hcases⟩ := above_iff.mp habove
    obtain rfl := Option.some.inj (h.symm.trans hq')
    rcases hcases with rfl | habove
    · exact .inl hr
    · exact .inr ⟨r, habove, hr⟩
  · rintro (hq | ⟨r, habove, hr⟩)
    · exact ⟨q, .parent h, hq⟩
    · exact ⟨r, .step h habove, hr⟩

mutual

theorem Tidy.tree_kept {id q : Nat} {t : Tree} (h : d.Tidy s) (hregular : d.Regular s)
    (hlinked : d.Linked) (ht : d.Holds p id t) (hchild : id ∈ d.children q) (pre : Bool)
    (hpre : d.Sheltered id ↔ pre = true) : t.Kept s pre := by
  match t with
  | .text text =>
      rcases h q id hchild text ht.2 with (hkeep | hsheltered) | hcollapse
      · exact .inl (by rw [hkeep]; rfl)
      · exact .inl (by rw [hpre.mp hsheltered, Bool.or_true])
      · exact .inr hcollapse
  | .comment content =>
      have hnode := hregular.nodes id
      simp only [Node.Scanned, ht.2] at hnode
      exact hnode.2.1
  | .element tag children =>
      simp only [Holds] at ht
      obtain ⟨-, ⟨e, he, hshows⟩, -, hall⟩ := ht
      have hnode : (d.node id).isPreformatted = isPreformatted tag.name := by
        simp [Node.isPreformatted, Node.element?, he, hshows.name]
      refine Tidy.trees_kept h hregular hlinked hall (List.Subset.refl _) _ ?_
      rw [hnode, hpre, Bool.or_eq_true]

/-- The settings leave the trees of a tidy document as they are. -/
theorem Tidy.trees_kept {ids : List Nat} {q : Nat} {ts : List Tree} (h : d.Tidy s)
    (hregular : d.Regular s) (hlinked : d.Linked) (hall : d.HoldsAll p ids ts)
    (hids : ids ⊆ d.children q) (pre : Bool)
    (hpre : (d.node q).isPreformatted = true ∨ d.Sheltered q ↔ pre = true) :
    TreesKept s pre ts := by
  match ids, ts with
  | [], [] => trivial
  | id :: ids, t :: ts =>
      simp only [HoldsAll] at hall
      obtain ⟨hid, hids⟩ := List.cons_subset.mp hids
      have hsheltered := (sheltered_of_parent? (hlinked.child q id hid)).trans hpre
      exact ⟨Tidy.tree_kept h hregular hlinked hall.1 hid pre hsheltered,
        Tidy.trees_kept h hregular hlinked hall.2 hids pre hpre⟩
  | [], _ :: _ => simp [HoldsAll] at hall
  | _ :: _, [] => simp [HoldsAll] at hall

end

theorem treesDepth_pos (t : Tree) : 0 < t.depth := by
  cases t <;> simp [Tree.depth]

mutual

theorem tree_trimmed {levels id : Nat} {t : Tree} (ht : d.Holds p id t)
    (hlevels : t.depth ≤ levels + 1)
    (hclipped : ((d.node id).isTag && !(d.node id).isPreformatted) = true →
      d.Clipped id ∧ ∀ q ∈ d.flowing levels id, d.Clipped q) : t.Trimmed := by
  match t with
  | .text _ => trivial
  | .comment _ => trivial
  | .element tag children =>
      simp only [Holds] at ht
      obtain ⟨-, ⟨e, he, hshows⟩, -, hall⟩ := ht
      intro hpre
      obtain ⟨hself, hinside⟩ := hclipped (by
        simp [Node.isTag, Node.isPreformatted, Node.element?, he, hshows.name, hpre])
      have hmap := hall.map_isBlankText
      simp only [Tree.depth, Nat.add_le_add_iff_right] at hlevels
      refine ⟨?_, ?_, trees_trimmed hall (List.Subset.refl _) hlevels hinside⟩
      · intro t ht
        have hhead := congrArg List.head? hmap
        rw [List.head?_map, List.head?_map, Option.mem_def.mp ht, Option.map_some] at hhead
        obtain ⟨i, hi, hblank⟩ := Option.map_eq_some_iff.mp hhead
        rw [← hblank]
        exact hself.head i hi
      · intro t ht
        have hlast := congrArg List.getLast? hmap
        rw [List.getLast?_map, List.getLast?_map, Option.mem_def.mp ht, Option.map_some] at hlast
        obtain ⟨i, hi, hblank⟩ := Option.map_eq_some_iff.mp hlast
        rw [← hblank]
        exact hself.last i hi

/-- No blank text stands at an edge of a tree if none does at the edges of the nodes. -/
theorem trees_trimmed {levels q : Nat} {ids : List Nat} {ts : List Tree}
    (hall : d.HoldsAll p ids ts) (hids : ids ⊆ d.children q) (hlevels : treesDepth ts ≤ levels)
    (hclipped : ∀ i ∈ d.flowing levels q, d.Clipped i) : TreesTrimmed ts := by
  match ids, ts with
  | [], [] => trivial
  | id :: ids, t :: ts =>
      simp only [HoldsAll] at hall
      obtain ⟨hid, hmore⟩ := List.cons_subset.mp hids
      simp only [treesDepth, Nat.max_le] at hlevels
      have hpos := treesDepth_pos t
      obtain ⟨below, rfl⟩ : ∃ below, levels = below + 1 := ⟨levels - 1, by omega⟩
      refine ⟨tree_trimmed hall.1 hlevels.1 fun hflows => ?_,
        trees_trimmed hall.2 hmore hlevels.2 hclipped⟩
      -- the element and those below it flow
      have hfound : ∀ i ∈ id :: d.flowing below id, d.Clipped i := by
        intro i hi
        apply hclipped
        rw [flowing, List.mem_flatMap]
        exact ⟨id, hid, by rw [if_pos hflows]; exact hi⟩
      exact List.forall_mem_cons.mp hfound
  | [], _ :: _ => simp [HoldsAll] at hall
  | _ :: _, [] => simp [HoldsAll] at hall

end

/-- The trees of a document are trimmed if no blank text stands at its top nor at an edge of one of its
elements. -/
theorem Shows.trimmed (h : d.Shows ts) (htop : ∀ i ∈ d.children 0, (d.node i).isBlankText = false)
    (hclipped : ∀ i ∈ d.flowing d.size 0, d.Clipped i) : Trimmed ts := by
  have hdepth := HoldsAll.depth_le h ∅ (by simp) (by simp)
  refine ⟨?_, trees_trimmed h (List.Subset.refl _) (by simpa using hdepth) hclipped⟩
  intro t ht
  have hblank := List.mem_map_of_mem (f := Tree.isBlank) ht
  rw [← HoldsAll.map_isBlankText h] at hblank
  obtain ⟨i, hi, heq⟩ := List.mem_map.mp hblank
  rw [← heq]
  exact htop i hi

end Document

end Stencil.Markup
