import Mathlib.Algebra.BigOperators.Group.List.Basic
import Stencil.Proofs.Chains

/-!
# What is counted below a node

A tally says what counts at a chain of conditions, at a block that continues none, at the invocation
of a component and at a text.  What counts in all the lists of siblings that are compiled with a node
(`Document.total`) is the sum of what each child of the node has a part in
(`Document.total_eq_sum_part`), and a chain has the parts of all its blocks.
-/

namespace Stencil.Markup

/-- What counts at the nodes of a document. -/
structure Tally (M : Type) where
  /-- A chain of conditions, apart from what is inside its blocks. -/
  chain : List Nat → M
  /-- A block that would continue a chain, but none reaches up to it. -/
  stray : Nat → M
  /-- The invocation of a component, apart from what is inside it. -/
  call : Nat → M
  text : Nat → M

namespace Document

variable {M : Type} [AddCommMonoid M] {d : Document} {t : Tally M}

/-- Whether a node is a text. -/
def isText (d : Document) (id : Nat) : Bool := (d.node id).type == .text

/-- What counts at a node itself, if it is an invocation. -/
def called (d : Document) (t : Tally M) (p : Nat) : M :=
  if (d.node p).type = .component then t.call p else 0

/-- What counts among the children of a node, and at the node itself. -/
def tallied (d : Document) (t : Tally M) (p : Nat) : M :=
  d.called t p + (((d.chains p).map t.chain).sum + ((d.strays p).map t.stray).sum +
    (((d.children p).filter d.isText).map t.text).sum)

/-- What counts in all the lists of siblings that are compiled with a node. -/
def total (d : Document) (t : Tally M) (p : Nat) : M := ((d.inside p).map (d.tallied t)).sum

/-- What one of the children of a node has a part in: it starts a chain, or belongs to none, or is a
text, and it is compiled together with its own children. -/
def part (d : Document) (t : Tally M) (p id : Nat) : M :=
  (if d.starts id then t.chain (id :: d.followers p id) else 0) +
    (if d.continues id && (d.headOf? p id).isNone then t.stray id else 0) +
    (if d.isText id then t.text id else 0) +
    if d.enters p id then d.total t id else 0

/-- What counts at a node that is compiled by itself. -/
def alonePart (d : Document) (t : Tally M) (id : Nat) : M :=
  if d.starts id then t.chain [id] + d.total t id
  else if d.continues id then t.stray id
  else if d.isText id then t.text id
  else if (d.node id).type != .fragment && (d.node id).opens then d.total t id
  else 0

/-- A part that only some nodes have. -/
theorem sum_map_guarded (ids : List Nat) (has : Nat → Bool) (count : Nat → M) :
    (ids.map fun id => if has id then count id else 0).sum = ((ids.filter has).map count).sum := by
  simp [List.sum_map_ite]

/-- What counts at the node and among its children, and what counts below those that are entered. -/
theorem total_eq (hd : d.Forward) (t : Tally M) (p : Nat) :
    d.total t p = d.tallied t p + (((d.children p).filter (d.enters p)).map (d.total t)).sum := by
  have hsum : ∀ ids : List Nat,
      ((ids.flatMap d.inside).map (d.tallied t)).sum = (ids.map (d.total t)).sum := by
    intro ids
    induction ids with
    | nil => rfl
    | cons id rest ih => simp [ih, total]
  rw [total, inside_eq hd p, List.map_cons, List.sum_cons, hsum]

/-- What counts at the node itself and what its children have a part in. -/
theorem total_eq_sum_part (hd : d.Forward) (t : Tally M) (p : Nat) :
    d.total t p = d.called t p + ((d.children p).map (d.part t p)).sum := by
  rw [total_eq hd, tallied, add_assoc, chains, List.map_map, strays, ← sum_map_guarded,
    ← sum_map_guarded, ← sum_map_guarded, ← sum_map_guarded, ← List.sum_map_add, ← List.sum_map_add,
    ← List.sum_map_add]
  rfl

section Parts

variable {p : Nat}

/-- A text or a comment that may stand between the blocks of a chain does not count. -/
theorem part_of_isGap (hfill : ∀ id, (d.node id).FillsGaps)
    (hgap : ∀ id, d.isGap id = true → d.isText id = true → t.text id = 0) {id : Nat}
    (h : d.isGap id = true) : d.part t p id = 0 := by
  rcases hfill id h with htype | htype
  · have htext : d.isText id = true := by simp [isText, htype]
    simp [part, starts, continues, enters, Node.opens, htype, htext, hgap id h htext]
  · simp [part, starts, continues, enters, Node.opens, isText, htype]

/-- A block that belongs to a chain is compiled with its children, and no more counts at it. -/
theorem part_of_headOf? {head id : Nat} (hcontinues : d.continues id = true)
    (h : d.headOf? p id = some head) : d.part t p id = d.total t id := by
  have htype : (d.node id).type = .block .elseIf ∨ (d.node id).type = .block .elseBlock := by
    simpa [continues] using hcontinues
  rcases htype with htype | htype <;>
    simp [part, starts, isText, enters, Node.opens, htype, h]

/-- **A chain** has the parts of all its blocks. -/
theorem sum_part_chain (hfill : ∀ id, (d.node id).FillsGaps)
    (hgap : ∀ id, d.isGap id = true → d.isText id = true → t.text id = 0) {id : Nat}
    {taken : List Nat} (hid : d.starts id = true)
    (htaken : d.followers p id = taken.filter d.continues)
    (hbetween : ∀ i ∈ taken, d.continues i = true ∨ d.isGap i = true) :
    ((id :: taken).map (d.part t p)).sum =
      t.chain (id :: d.followers p id) + ((id :: d.followers p id).map (d.total t)).sum := by
  have hfirst : d.part t p id = t.chain (id :: d.followers p id) + d.total t id := by
    have htype : (d.node id).type = .block .ifBlock := by simpa [starts] using hid
    simp [part, hid, continues, isText, enters, Node.opens, htype]
  have hrest : ∀ i ∈ taken, d.part t p i = if d.continues i then d.total t i else 0 := by
    intro i hi
    by_cases hcontinues : d.continues i = true
    · have hmem : i ∈ d.followers p id := by
        rw [htaken]
        exact List.mem_filter.mpr ⟨hi, hcontinues⟩
      have hhead : d.headOf? p i = some id := by
        simpa [hcontinues] using (List.mem_filter.mp hmem).2
      rw [if_pos hcontinues, part_of_headOf? hcontinues hhead]
    · rw [if_neg hcontinues, part_of_isGap hfill hgap ((hbetween i hi).resolve_left hcontinues)]
  rw [List.map_cons, List.sum_cons, List.map_cons, List.sum_cons, hfirst, add_assoc,
    List.map_congr_left hrest, sum_map_guarded, htaken]

/-- A node that belongs to no chain among its siblings has the part of a node by itself. -/
theorem part_eq_alonePart {id : Nat} (hid : d.starts id = false ∨ (d.node p).type = .component)
    (hstray : d.continues id = true → d.headOf? p id = none) :
    d.part t p id = d.alonePart t id := by
  by_cases hstarts : d.starts id = true
  · have htype : (d.node id).type = .block .ifBlock := by simpa [starts] using hstarts
    have hp := hid.resolve_left (by simp [hstarts])
    have hfollowers : d.followers p id = [] := by
      refine List.filter_eq_nil_iff.mpr fun i _ => ?_
      simp [headOf?, hp]
    simp [part, alonePart, hstarts, hfollowers, continues, isText, enters, Node.opens, htype]
  · by_cases hcontinues : d.continues id = true
    · have htext : d.isText id = false := by
        rw [Bool.eq_false_iff]
        intro htext
        have htype : (d.node id).type = .text := by simpa [isText] using htext
        simp [continues, htype] at hcontinues
      simp [part, alonePart, hstarts, hcontinues, hstray hcontinues, htext, enters]
    · by_cases htext : d.isText id = true
      · have htype : (d.node id).type = .text := by simpa [isText] using htext
        simp [part, alonePart, hstarts, hcontinues, htext, enters, Node.opens, htype]
      · simp [part, alonePart, hstarts, hcontinues, htext, enters]

end Parts

/-- What counts at a node that is compiled by itself, by its type. -/
theorem alonePart_eq (d : Document) (t : Tally M) (id : Nat) :
    d.alonePart t id =
      match (d.node id).type with
      | .block .ifBlock => t.chain [id] + d.total t id
      | .block .elseIf | .block .elseBlock => t.stray id
      | .fragment => 0
      | .text => t.text id
      | _ => if (d.node id).opens then d.total t id else 0 := by
  unfold alonePart starts continues isText
  cases (d.node id).type with
  | block kind => cases kind <;> simp
  | _ => simp

end Document

end Stencil.Markup
