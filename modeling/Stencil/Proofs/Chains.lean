import Mathlib.Data.Multiset.ZeroCons
import Mathlib.Data.List.Flatten
import Mathlib.Data.List.TakeWhile
import Stencil.Component.Chain
import Stencil.Proofs.Forest

/-!
# Which chain a block belongs to

An `elseif` or `else` belongs to the chain that reaches up to it: comments and blank text apart, the
sibling before it is the `if` that starts the chain, or an `elseif` of the chain
(`Document.chainUpTo?`).  Among the children of an invocation no chains are gathered
(`Document.headOf?`).  A list of siblings is divided in one pass from its front, and what comes out
are the chains in this sense (`Document.grouped_groups`).

`Document.Compiled` are the nodes whose children are compiled with a component, and
`Document.inside` lists them.
-/

namespace Stencil.Markup

/-- Whether the children of a node are compiled when the node is. -/
def Node.opens (n : Node) : Bool :=
  match n.type with
  | .document => true
  | .element | .fragment =>
      match n.element? with
      | some e => !isVoid e.name && e.raw.isNone
      | none => false
  | .component => n.element?.isSome
  | .block .forBlock =>
      match n.params.block with
      | some (.loop _) => true
      | _ => false
  | .block _ => true
  | _ => false

/-- What may stand between the blocks of a chain is a text or a comment. -/
def Node.FillsGaps (n : Node) : Prop := isFiller n = true → n.type = .text ∨ n.type = .comment

namespace Document

/-- Whether a node starts a chain of conditions. -/
def starts (d : Document) (id : Nat) : Bool := (d.node id).type == .block .ifBlock

/-- Whether a node continues a chain, if one reaches up to it. -/
def continues (d : Document) (id : Nat) : Bool :=
  (d.node id).type == .block .elseIf || (d.node id).type == .block .elseBlock

/-- Whether a node may stand between the blocks of a chain. -/
def isGap (d : Document) (id : Nat) : Bool := isFiller (d.node id)

/-- The chain that reaches up to a place, by the block that starts it; the siblings before the place
are given from the nearest one on.  Comments and blank text are passed over, and an `elseif` belongs
to the chain, if any, that reaches up to it. -/
def chainUpTo? (d : Document) : List Nat → Option Nat
  | [] => none
  | id :: before =>
      if d.isGap id then d.chainUpTo? before
      else
        match (d.node id).type with
        | .block .ifBlock => some id
        | .block .elseIf => d.chainUpTo? before
        | _ => none

/-- The chain that reaches up to one of the children of a node. -/
def chainOf? (d : Document) (p id : Nat) : Option Nat :=
  d.chainUpTo? ((d.children p).takeWhile (· != id)).reverse

/-- The chain that a block among the children of a node is compiled with: the children of an
invocation are compiled one by one. -/
def headOf? (d : Document) (p id : Nat) : Option Nat :=
  if (d.node p).type = .component then none else d.chainOf? p id

/-- The blocks that continue a chain. -/
def followers (d : Document) (p head : Nat) : List Nat :=
  (d.children p).filter fun id => d.continues id && d.headOf? p id == some head

/-- The chains among the children of a node. -/
def chains (d : Document) (p : Nat) : List (List Nat) :=
  ((d.children p).filter d.starts).map fun head => head :: d.followers p head

/-- The blocks that would continue a chain, but none reaches up to them. -/
def strays (d : Document) (p : Nat) : List Nat :=
  (d.children p).filter fun id => d.continues id && (d.headOf? p id).isNone

/-- Whether one of the children of a node is compiled together with its own children.  A fragment is
a component of its own, and of a block that continues no chain nothing is compiled. -/
def enters (d : Document) (p id : Nat) : Bool :=
  (d.node id).type != .fragment && (d.node id).opens &&
    (!d.continues id || (d.headOf? p id).isSome)

/-- The nodes whose children are compiled with the component of a root. -/
inductive Compiled (d : Document) (root : Nat) : Nat → Prop
  | root (hopens : (d.node root).opens = true) : Compiled d root root
  | child {p id : Nat} (hp : Compiled d root p) (hid : id ∈ d.children p)
      (henters : d.enters p id = true) : Compiled d root id

/-- A node and the nodes below it whose children are compiled, down to a number of levels. -/
def insideTo (d : Document) : Nat → Nat → List Nat
  | 0, _ => []
  | levels + 1, p => p :: ((d.children p).filter (d.enters p)).flatMap (d.insideTo levels)

/-- A node and the nodes below it whose children are compiled with it. -/
def inside (d : Document) (p : Nat) : List Nat := d.insideTo (d.size + 1) p

/-- The nodes whose children are compiled with the component of a root, in document order. -/
def compiled (d : Document) (root : Nat) : List Nat :=
  if (d.node root).opens then d.inside root else []

/-- Chains, and blocks without one. -/
abbrev Found := Multiset (List Nat) × Multiset Nat

variable {d : Document}

section Heads

/-- Whether a chain goes on behind a node. -/
def passes (d : Document) (id : Nat) : Bool :=
  d.isGap id || (d.node id).type == .block .elseIf

/-- The search for the head of a chain goes on over nodes that pass, and ends at the first that does
not. -/
theorem chainUpTo?_cons (id : Nat) (before : List Nat) : d.chainUpTo? (id :: before) =
    if d.passes id then d.chainUpTo? before else if d.starts id then some id else none := by
  rw [chainUpTo?]
  split
  · next hgap => simp [passes, hgap]
  · next hgap =>
      split
      · next htype => simp [passes, starts, hgap, htype]
      · next htype => simp [passes, htype]
      · next hif helseif =>
          have hstarts : d.starts id = false := by simpa [starts] using hif
          have hpasses : d.passes id = false := by simpa [passes, hgap] using helseif
          simp [hstarts, hpasses]

/-- Over two lists it goes on into the second if all of the first pass. -/
theorem chainUpTo?_append (near far : List Nat) : d.chainUpTo? (near ++ far) =
    if near.all d.passes then d.chainUpTo? far else d.chainUpTo? near := by
  induction near with
  | nil => simp
  | cons id rest ih =>
      rw [List.cons_append, chainUpTo?_cons, chainUpTo?_cons, ih, List.all_cons]
      by_cases hpasses : d.passes id = true <;> simp [hpasses]

/-- A chain is started by one of the siblings before. -/
theorem mem_of_chainUpTo? {before : List Nat} {head : Nat} (h : d.chainUpTo? before = some head) :
    head ∈ before ∧ d.starts head = true := by
  induction before with
  | nil => simp [chainUpTo?] at h
  | cons id before ih =>
      rw [chainUpTo?_cons] at h
      split at h
      · exact ⟨List.mem_cons_of_mem _ (ih h).1, (ih h).2⟩
      · split at h
        · next hstarts =>
            obtain rfl := Option.some.inj h
            exact ⟨List.mem_cons_self, hstarts⟩
        · simp at h

variable {p : Nat}

/-- The siblings before a node. -/
theorem takeWhile_children {id : Nat} {front back : List Nat} (hnodup : (d.children p).Nodup)
    (h : d.children p = front ++ id :: back) : (d.children p).takeWhile (· != id) = front := by
  have hfront : ∀ i ∈ front, (i != id) = true := by
    intro i hi
    rw [h] at hnodup
    rw [bne_iff_ne]
    rintro rfl
    exact (List.nodup_append.mp hnodup).2.2 i hi i List.mem_cons_self rfl
  rw [h, List.takeWhile_append_of_pos hfront]
  simp

/-- The head is searched among the siblings in front. -/
theorem headOf?_eq (hp : (d.node p).type ≠ .component) (hnodup : (d.children p).Nodup) {id : Nat}
    (front : List Nat) {back : List Nat} (h : d.children p = front ++ id :: back) :
    d.headOf? p id = d.chainUpTo? front.reverse := by
  rw [headOf?, if_neg hp, chainOf?, takeWhile_children hnodup h]

/-- A head that is found is a sibling that starts a chain. -/
theorem mem_of_headOf? {id head : Nat} (h : d.headOf? p id = some head) :
    head ∈ d.children p ∧ d.starts head = true := by
  unfold headOf? at h
  split at h
  · simp at h
  · obtain ⟨hmem, hstarts⟩ := mem_of_chainUpTo? h
    exact ⟨(List.takeWhile_prefix _).mem (List.mem_reverse.mp hmem), hstarts⟩

/-- What starts a chain continues none. -/
theorem not_continues_of_starts {id : Nat} (h : d.starts id = true) : d.continues id = false := by
  have htype : (d.node id).type = .block .ifBlock := by simpa [starts] using h
  simp [continues, htype]

/-- **Each block has one place.**  The chains among the children of a node and the blocks that
continue none hold each block of a condition once, and no other nodes. -/
theorem perm_blocks (hnodup : (d.children p).Nodup) : ((d.chains p).flatten ++ d.strays p).Perm
    ((d.children p).filter fun id => d.starts id || d.continues id) := by
  have hfollower : ∀ {id head}, id ∈ d.followers p head ↔
      id ∈ d.children p ∧ d.continues id = true ∧ d.headOf? p id = some head := by
    simp [followers, List.mem_filter]
  have hstray : ∀ {id}, id ∈ d.strays p ↔
      id ∈ d.children p ∧ d.continues id = true ∧ d.headOf? p id = none := by
    simp [strays, List.mem_filter]
  have hchained : ∀ {id}, id ∈ (d.chains p).flatten ↔ ∃ head, head ∈ d.children p ∧
      d.starts head = true ∧ (id = head ∨ id ∈ d.followers p head) := by
    simp [chains, List.mem_filter, and_assoc]
  have hapart : ∀ {id}, d.starts id = true → d.continues id = true → False := by
    intro id hstarts hcontinues
    simp [not_continues_of_starts hstarts] at hcontinues
  have hflatten : (d.chains p).flatten.Nodup := by
    refine List.nodup_flatten.mpr ⟨fun ids hids => ?_, ?_⟩
    · obtain ⟨head, hhead, rfl⟩ := List.mem_map.mp hids
      refine List.nodup_cons.mpr ⟨fun hself => ?_, hnodup.filter _⟩
      exact hapart (List.mem_filter.mp hhead).2 (hfollower.mp hself).2.1
    · rw [chains, List.pairwise_map]
      refine (hnodup.filter _).pairwise_of_forall_ne fun a ha b hb hne id hia hib => ?_
      have hsa := (List.mem_filter.mp ha).2
      have hsb := (List.mem_filter.mp hb).2
      rcases List.mem_cons.mp hia with rfl | hia
      · rcases List.mem_cons.mp hib with rfl | hib
        · exact hne rfl
        · exact hapart hsa (hfollower.mp hib).2.1
      · rcases List.mem_cons.mp hib with rfl | hib
        · exact hapart hsb (hfollower.mp hia).2.1
        · have hheads := (hfollower.mp hia).2.2.symm.trans (hfollower.mp hib).2.2
          exact hne (Option.some.inj hheads)
  have hall : ((d.chains p).flatten ++ d.strays p).Nodup := by
    refine List.nodup_append.mpr ⟨hflatten, hnodup.filter _, ?_⟩
    rintro id hid _ hother rfl
    obtain ⟨-, hcontinues, hnone⟩ := hstray.mp hother
    obtain ⟨head, -, hstarts, rfl | hid⟩ := hchained.mp hid
    · exact hapart hstarts hcontinues
    · simp [(hfollower.mp hid).2.2] at hnone
  refine (List.perm_ext_iff_of_nodup hall (hnodup.filter _)).mpr fun id => ?_
  simp only [List.mem_append, hchained, hstray, List.mem_filter, Bool.or_eq_true]
  constructor
  · rintro (⟨head, hhead, hstarts, rfl | hid⟩ | ⟨hmem, hcontinues, -⟩)
    · exact ⟨hhead, .inl hstarts⟩
    · exact ⟨(hfollower.mp hid).1, .inr (hfollower.mp hid).2.1⟩
    · exact ⟨hmem, .inr hcontinues⟩
  · rintro ⟨hmem, hstarts | hcontinues⟩
    · exact .inl ⟨id, hmem, hstarts, .inl rfl⟩
    · cases hhead : d.headOf? p id with
      | none => exact .inr ⟨hmem, hcontinues, rfl⟩
      | some head =>
          obtain ⟨hsibling, hstarts⟩ := mem_of_headOf? hhead
          exact .inl ⟨head, hsibling, hstarts, .inr (hfollower.mpr ⟨hmem, hcontinues, hhead⟩)⟩

/-- What continues a chain is no gap. -/
theorem not_isGap_of_continues (hfill : ∀ id, (d.node id).FillsGaps) {id : Nat}
    (h : d.continues id = true) : d.isGap id = false := by
  rw [Bool.eq_false_iff]
  intro hgap
  rcases hfill id hgap with htype | htype <;> simp [continues, htype] at h

/-- No chain goes on over the start of another one. -/
theorem passes_of_starts (hfill : ∀ id, (d.node id).FillsGaps) {id : Nat}
    (h : d.starts id = true) : d.passes id = false := by
  have htype : (d.node id).type = .block .ifBlock := by simpa [starts] using h
  have hgap : d.isGap id = false := by
    rw [Bool.eq_false_iff]
    intro hgap
    rcases hfill id hgap with hother | hother <;> simp [htype] at hother
  simp [passes, hgap, htype]

/-- No chain reaches over an `else`. -/
theorem passes_of_else (hfill : ∀ id, (d.node id).FillsGaps) {id : Nat}
    (h : (d.node id).type = .block .elseBlock) : d.passes id = false ∧ d.starts id = false := by
  have hgap : d.isGap id = false := not_isGap_of_continues hfill (by simp [continues, h])
  simp [passes, starts, hgap, h]

end Heads

section Groups

/-- The siblings behind the start of a chain, as far as the chain reaches: the last of them is an
`else`, or the next one, gaps apart, does not continue the chain. -/
structure Taken (d : Document) (taken after : List Nat) : Prop where
  between : ∀ id ∈ taken, d.continues id = true ∨ d.isGap id = true
  ends : (∃ init last, taken = init ++ [last] ∧ (∀ id ∈ init, d.passes id = true) ∧
      (d.node last).type = .block .elseBlock) ∨
    (∀ id ∈ taken, d.passes id = true) ∧
      ∀ id ∈ after.find? (fun id => !d.isGap id), d.continues id = false

/-- Siblings are divided into chains and single nodes: a chain takes in the blocks that belong to it,
and a node by itself starts no chain and belongs to none. -/
inductive Grouped (d : Document) (p : Nat) : List Nat → List Group → Prop
  | nil : Grouped d p [] []
  | chain {id : Nat} {taken after : List Nat} {gs : List Group} (hid : d.starts id = true)
      (htaken : d.followers p id = taken.filter d.continues)
      (hbetween : ∀ i ∈ taken, d.continues i = true ∨ d.isGap i = true)
      (hrest : Grouped d p after gs) :
      Grouped d p (id :: (taken ++ after)) (.chain (id :: d.followers p id) :: gs)
  | single {id : Nat} {rest : List Nat} {gs : List Group} (hid : d.starts id = false)
      (hstray : d.continues id = true → d.headOf? p id = none) (hrest : Grouped d p rest gs) :
      Grouped d p (id :: rest) (.single id :: gs)

/-- The blocks that a chain takes in go on with it. -/
theorem Taken.passes_before {taken after a b : List Nat} {id : Nat} (h : d.Taken taken after)
    (hsplit : taken = a ++ id :: b) : ∀ i ∈ a, d.passes i = true := by
  intro i hi
  rcases h.ends with ⟨init, last, heq, hinit, -⟩ | ⟨hall, -⟩
  · have hlength := congrArg List.length (heq.symm.trans hsplit)
    simp only [List.length_append, List.length_cons, List.length_nil] at hlength
    have hinner : a <+: init :=
      List.prefix_of_prefix_length_le ⟨id :: b, (heq.symm.trans hsplit).symm⟩
        (List.prefix_append init [last]) (by omega)
    exact hinit i (hinner.mem hi)
  · exact hall i (by simp [hsplit, hi])

/-- The gaps that are passed over, and the first sibling behind them. -/
theorem exists_skipped {ids rest : List Nat} {id : Nat}
    (h : ids.dropWhile (fun id => isFiller (d.node id)) = id :: rest) :
    ∃ skipped, ids = skipped ++ id :: rest ∧ (∀ i ∈ skipped, d.isGap i = true) ∧
      d.isGap id = false := by
  refine ⟨ids.takeWhile d.isGap, ?_, fun i hi => List.mem_takeWhile_imp hi, ?_⟩
  · rw [← h]
    exact List.takeWhile_append_dropWhile.symm
  · have hhead := List.head?_dropWhile_not (fun id => isFiller (d.node id)) ids
    rw [h] at hhead
    simpa [isGap] using hhead

section Taken

variable {skipped taken after : List Nat} {id : Nat}

/-- Where only gaps are left, a chain takes nothing in. -/
theorem Taken.of_gaps (hafter : ∀ i ∈ after, d.isGap i = true) : d.Taken [] after := by
  refine ⟨by simp, .inr ⟨by simp, fun id hid => ?_⟩⟩
  have hfound := List.find?_some hid
  rw [hafter id (List.mem_of_find?_eq_some hid)] at hfound
  exact absurd hfound (by simp)

variable (hskipped : ∀ i ∈ skipped, d.isGap i = true)
include hskipped

/-- A chain takes nothing in if the first sibling behind the gaps does not continue it. -/
theorem Taken.other (hid : d.isGap id = false) (hcontinues : d.continues id = false)
    (rest : List Nat) : d.Taken [] (skipped ++ id :: rest) := by
  refine ⟨by simp, .inr ⟨by simp, fun i hi => ?_⟩⟩
  have hnone : skipped.find? (fun id => !d.isGap id) = none := by
    simpa [List.find?_eq_none] using hskipped
  simp only [List.find?_append, hnone, List.find?_cons, hid, Bool.not_false, Option.none_or,
    Option.mem_def, Option.some.injEq] at hi
  subst hi
  exact hcontinues

/-- A chain that comes to an `elseif` goes on behind it. -/
theorem Taken.elseIf (h : d.Taken taken after) (htype : (d.node id).type = .block .elseIf) :
    d.Taken (skipped ++ id :: taken) after := by
  have hpasses : ∀ i ∈ skipped ++ [id], d.passes i = true := by
    intro i hi
    rcases List.mem_append.mp hi with hi | hi
    · simp [passes, hskipped i hi]
    · rw [List.mem_singleton.mp hi]
      simp [passes, htype]
  refine ⟨fun i hi => ?_, ?_⟩
  · rcases List.mem_append.mp hi with hi | hi
    · exact .inr (hskipped i hi)
    · rcases List.mem_cons.mp hi with rfl | hi
      · exact .inl (by simp [continues, htype])
      · exact h.between i hi
  · rw [List.append_cons]
    rcases h.ends with ⟨init, last, rfl, hinit, hlast⟩ | ⟨hall, hnext⟩
    · refine .inl ⟨skipped ++ [id] ++ init, last, by simp, fun i hi => ?_, hlast⟩
      exact (List.mem_append.mp hi).elim (hpasses i) (hinit i)
    · refine .inr ⟨fun i hi => ?_, hnext⟩
      exact (List.mem_append.mp hi).elim (hpasses i) (hall i)

/-- A chain ends with an `else`. -/
theorem Taken.elseBlock (htype : (d.node id).type = .block .elseBlock) (after : List Nat) :
    d.Taken (skipped ++ [id]) after := by
  refine ⟨fun i hi => ?_, .inl ⟨skipped, id, rfl, fun i hi => by simp [passes, hskipped i hi], htype⟩⟩
  rcases List.mem_append.mp hi with hi | hi
  · exact .inr (hskipped i hi)
  · rw [List.mem_singleton.mp hi]
    exact .inl (by simp [continues, htype])

end Taken

variable (hfill : ∀ id, (d.node id).FillsGaps)
include hfill

/-- Gaps continue nothing. -/
theorem filter_continues_of_gaps {skipped : List Nat} (hskipped : ∀ i ∈ skipped, d.isGap i = true) :
    skipped.filter d.continues = [] := by
  refine List.filter_eq_nil_iff.mpr fun i hi hcontinues => ?_
  have hgap := hskipped i hi
  rw [not_isGap_of_continues hfill hcontinues] at hgap
  exact Bool.false_ne_true hgap

/-- How the siblings behind the start of a chain are divided. -/
theorem chainRest_taken (ids : List Nat) : ∃ taken, ids = taken ++ (chainRest d ids).2 ∧
    (chainRest d ids).1 = taken.filter d.continues ∧ d.Taken taken (chainRest d ids).2 := by
  fun_induction chainRest d ids with
  | case1 ids h =>
      have hall : ∀ i ∈ ids, d.isGap i = true := List.dropWhile_eq_nil_iff.mp h
      exact ⟨[], rfl, rfl, .of_gaps hall⟩
  | case2 ids id rest h _ htype more after hr ih =>
      obtain ⟨skipped, rfl, hskipped, hid⟩ := exists_skipped h
      obtain ⟨taken, hrest, hmore, htaken⟩ := ih
      rw [hr] at hrest hmore htaken
      have hcontinues : d.continues id = true := by simp [continues, htype]
      refine ⟨skipped ++ id :: taken, by simp [hrest], ?_, htaken.elseIf hskipped htype⟩
      rw [List.filter_append, filter_continues_of_gaps hfill hskipped,
        List.filter_cons_of_pos hcontinues, ← hmore, List.nil_append]
  | case3 ids id rest h _ htype =>
      obtain ⟨skipped, rfl, hskipped, hid⟩ := exists_skipped h
      have hcontinues : d.continues id = true := by simp [continues, htype]
      refine ⟨skipped ++ [id], by simp, ?_, .elseBlock hskipped htype _⟩
      rw [List.filter_append, filter_continues_of_gaps hfill hskipped,
        List.filter_cons_of_pos hcontinues]
      rfl
  | case4 ids id rest h _ helseif helse =>
      obtain ⟨skipped, rfl, hskipped, hid⟩ := exists_skipped h
      exact ⟨[], rfl, rfl, .other hskipped hid (by simpa [continues] using ⟨helseif, helse⟩) _⟩

/-- Whether a chain reaches over what it took in: only if there is no `else` at the end. -/
theorem Taken.chainUpTo?_eq {taken after : List Nat} (h : d.Taken taken after) (far : List Nat) :
    d.chainUpTo? (taken.reverse ++ far) = none ∨
      d.chainUpTo? (taken.reverse ++ far) = d.chainUpTo? far ∧
        ∀ id ∈ after.find? (fun id => !d.isGap id), d.continues id = false := by
  rcases h.ends with ⟨init, last, rfl, -, hlast⟩ | ⟨hall, hnext⟩
  · left
    obtain ⟨hpasses, hstarts⟩ := passes_of_else hfill hlast
    simp [chainUpTo?_cons, hpasses, hstarts]
  · right
    refine ⟨?_, hnext⟩
    rw [chainUpTo?_append, if_pos]
    exact List.all_eq_true.mpr fun i hi => hall i (List.mem_reverse.mp hi)

variable {p : Nat} (hp : (d.node p).type ≠ .component) (hnodup : (d.children p).Nodup)
include hp hnodup

section Chain

variable {id : Nat} {front taken after : List Nat} (hid : d.starts id = true)
  (hsplit : d.children p = front ++ id :: (taken ++ after)) (htaken : d.Taken taken after)
include hid hsplit htaken

/-- The blocks that a chain takes in belong to it. -/
theorem headOf?_of_mem_taken {i : Nat} (hi : i ∈ taken) : d.headOf? p i = some id := by
  obtain ⟨a, b, rfl⟩ := List.append_of_mem hi
  have hall : a.reverse.all d.passes = true :=
    List.all_eq_true.mpr fun j hj => htaken.passes_before rfl j (List.mem_reverse.mp hj)
  rw [headOf?_eq hp hnodup (front ++ id :: a) (by simpa using hsplit)]
  simp only [List.reverse_append, List.reverse_cons, List.append_assoc, List.singleton_append]
  rw [chainUpTo?_append, if_pos hall, chainUpTo?_cons]
  simp [passes_of_starts hfill hid, hid]

omit hid in
/-- The blocks behind a chain do not belong to it. -/
theorem headOf?_ne_of_mem_after {i : Nat} (hi : i ∈ after) (hcontinues : d.continues i = true) :
    d.headOf? p i ≠ some id := by
  intro hhead
  obtain ⟨a, b, rfl⟩ := List.append_of_mem hi
  rw [headOf?_eq hp hnodup (front ++ id :: (taken ++ a)) (by simpa using hsplit)] at hhead
  simp only [List.reverse_append, List.reverse_cons, List.append_assoc, List.singleton_append,
    chainUpTo?_append a.reverse] at hhead
  split at hhead
  · next hall =>
      rcases htaken.chainUpTo?_eq hfill (id :: front.reverse) with hnone | ⟨-, hnext⟩
      · simp [hnone] at hhead
      · rw [List.find?_append] at hnext
        cases hfind : a.find? fun id => !d.isGap id with
        | none =>
            have hstop := hnext i (by simp [hfind, not_isGap_of_continues hfill hcontinues])
            rw [hcontinues] at hstop
            exact absurd hstop (by simp)
        | some j =>
            -- a chain goes on behind this node, and it is no gap
            have hstop := hnext j (by simp [hfind])
            have hpasses := List.all_eq_true.mp hall j (by
              simpa using List.mem_of_find?_eq_some hfind)
            have hgap := List.find?_some hfind
            simp_all [passes, continues]
  · have hmem := List.mem_reverse.mp (mem_of_chainUpTo? hhead).1
    rw [hsplit] at hnodup
    have hrest := (List.nodup_append.mp hnodup).2.1
    exact (List.nodup_cons.mp hrest).1 (by simp [hmem])

/-- **The blocks of a chain** are those that it takes in. -/
theorem followers_eq_filter_taken : d.followers p id = taken.filter d.continues := by
  have hnone : ∀ {is : List Nat}, (∀ i ∈ is, d.continues i = true → d.headOf? p i ≠ some id) →
      is.filter (fun i => d.continues i && d.headOf? p i == some id) = [] := by
    intro is his
    simpa [List.filter_eq_nil_iff] using his
  have hfront : ∀ i ∈ front, d.continues i = true → d.headOf? p i ≠ some id := by
    intro i hi _ hhead
    obtain ⟨a, b, rfl⟩ := List.append_of_mem hi
    rw [headOf?_eq hp hnodup a (by simpa using hsplit)] at hhead
    have hmem := List.mem_reverse.mp (mem_of_chainUpTo? hhead).1
    rw [hsplit] at hnodup
    exact (List.nodup_append.mp hnodup).2.2 id (by simp [hmem]) id List.mem_cons_self rfl
  have hafter : ∀ i ∈ after, d.continues i = true → d.headOf? p i ≠ some id :=
    fun i => headOf?_ne_of_mem_after hfill hp hnodup hsplit htaken
  rw [followers, hsplit, List.filter_append, hnone hfront, List.nil_append,
    List.filter_cons_of_neg (by simp [not_continues_of_starts hid]), List.filter_append,
    hnone hafter, List.append_nil]
  refine List.filter_congr fun i hi => ?_
  simp [headOf?_of_mem_taken hfill hp hnodup hid hsplit htaken hi]

end Chain

/-- The siblings from a place on that no chain reaches over. -/
theorem grouped_from (front : List Nat) {rest : List Nat} (hsplit : d.children p = front ++ rest)
    (hclosed : ∀ i ∈ rest.find? (fun id => !d.isGap id), d.continues i = true →
      d.chainUpTo? front.reverse = none) : d.Grouped p rest (groups d rest) := by
  induction rest using groups.induct d generalizing front with
  | case1 =>
      rw [groups]
      exact .nil
  | case2 id rest hif _ ih =>
      have hid : d.starts id = true := hif
      obtain ⟨taken, hrest, hmore, htaken⟩ := chainRest_taken hfill rest
      rw [groups, if_pos hif]
      generalize chainRest d rest = r at hrest hmore htaken ih ⊢
      subst hrest
      have hfollowers := followers_eq_filter_taken hfill hp hnodup hid hsplit htaken
      rw [hmore, ← hfollowers]
      refine .chain hid hfollowers htaken.between (ih (front ++ id :: taken) ?_ ?_)
      · simpa using hsplit
      · intro i hi hcontinues
        simp only [List.reverse_append, List.reverse_cons, List.append_assoc, List.singleton_append]
        rcases htaken.chainUpTo?_eq hfill (id :: front.reverse) with hnone | ⟨-, hnext⟩
        · exact hnone
        · rw [hnext i hi] at hcontinues
          exact absurd hcontinues (by simp)
  | case3 id rest hif ih =>
      have hid : d.starts id = false := by simpa [starts] using hif
      have hfirst : d.continues id = true → d.chainUpTo? front.reverse = none := by
        intro hcontinues
        exact hclosed id (by simp [not_isGap_of_continues hfill hcontinues]) hcontinues
      rw [groups, if_neg hif]
      refine .single hid (fun hcontinues => ?_) (ih (front ++ [id]) (by simpa using hsplit) ?_)
      · rw [headOf?_eq hp hnodup front hsplit]
        exact hfirst hcontinues
      · intro i hi hcontinues
        rw [List.reverse_append, List.reverse_singleton, List.singleton_append, chainUpTo?_cons]
        by_cases hpasses : d.passes id = true
        · rw [if_pos hpasses]
          by_cases hgap : d.isGap id = true
          · exact hclosed i (by simpa [hgap] using hi) hcontinues
          · have helseif : (d.node id).type = .block .elseIf := by simpa [passes, hgap] using hpasses
            exact hfirst (by simp [continues, helseif])
        · rw [if_neg hpasses, if_neg (by simp [hid])]

/-- **Siblings are divided into their chains**: into what was defined by looking back from each
block. -/
theorem grouped_groups : d.Grouped p (d.children p) (groups d (d.children p)) :=
  grouped_from hfill hp hnodup [] rfl fun _ _ _ => rfl

end Groups

section Compiled

/-- Levels beyond the size of the document add nothing. -/
theorem insideTo_succ (hd : d.Forward) {levels p : Nat} (hpos : 0 < levels)
    (hlevels : d.size ≤ p + levels) : d.insideTo (levels + 1) p = d.insideTo levels p := by
  induction levels generalizing p with
  | zero => omega
  | succ levels ih =>
      have hbelow : ∀ child ∈ (d.children p).filter (d.enters p),
          d.insideTo (levels + 1) child = d.insideTo levels child := by
        intro child hchild
        have hforward := hd p child (List.mem_filter.mp hchild).1
        exact ih (by omega) (by omega)
      rw [insideTo, insideTo, List.flatMap_congr hbelow]

/-- What is inside a node is the node and what is inside the children entered. -/
theorem inside_eq (hd : d.Forward) (p : Nat) :
    d.inside p = p :: ((d.children p).filter (d.enters p)).flatMap d.inside := by
  rw [inside, ← insideTo_succ hd (by omega) (by omega)]
  rfl

variable {root p id : Nat}

/-- A node that is entered opens and is no fragment. -/
theorem opens_of_enters (h : d.enters p id = true) :
    (d.node id).opens = true ∧ (d.node id).type ≠ .fragment := by
  simp only [enters, Bool.and_eq_true, bne_iff_ne] at h
  exact ⟨h.1.2, h.1.1⟩

theorem Compiled.trans {q : Nat} (h : d.Compiled root p) (h' : d.Compiled p q) :
    d.Compiled root q := by
  induction h' with
  | root => exact h
  | child _ hid henters ih => exact .child ih hid henters

/-- A child that is entered is inside. -/
theorem mem_inside_of_child (hd : d.Forward) (hp : p ∈ d.inside root) (hid : id ∈ d.children p)
    (henters : d.enters p id = true) : id ∈ d.inside root := by
  induction hdistance : d.size - root using Nat.strong_induction_on generalizing root with
  | _ distance ih =>
      rw [inside_eq hd] at hp ⊢
      refine List.mem_cons_of_mem _ (List.mem_flatMap.mpr ?_)
      rcases List.mem_cons.mp hp with rfl | hp
      · refine ⟨id, List.mem_filter.mpr ⟨hid, henters⟩, ?_⟩
        rw [inside_eq hd]
        exact List.mem_cons_self
      · obtain ⟨child, hchild, hp⟩ := List.mem_flatMap.mp hp
        have hforward := hd root child (List.mem_filter.mp hchild).1
        exact ⟨child, hchild, ih (d.size - child) (by omega) hp rfl⟩

/-- What is inside a node that opens is compiled. -/
theorem compiled_of_mem_inside (hd : d.Forward) (hopens : (d.node root).opens = true)
    (h : p ∈ d.inside root) : d.Compiled root p := by
  induction hdistance : d.size - root using Nat.strong_induction_on generalizing root with
  | _ distance ih =>
      rw [inside_eq hd] at h
      rcases List.mem_cons.mp h with rfl | h
      · exact .root hopens
      · obtain ⟨child, hchild, h⟩ := List.mem_flatMap.mp h
        obtain ⟨hmem, henters⟩ := List.mem_filter.mp hchild
        have hforward := hd root child hmem
        exact (Compiled.child (.root hopens) hmem henters).trans
          (ih (d.size - child) (by omega) (opens_of_enters henters).1 h rfl)

/-- The list holds the nodes whose children are compiled. -/
theorem mem_compiled_iff (hd : d.Forward) : p ∈ d.compiled root ↔ d.Compiled root p := by
  unfold compiled
  constructor
  · intro h
    split at h
    · next hopens => exact compiled_of_mem_inside hd hopens h
    · simp at h
  · intro h
    induction h with
    | root hopens =>
        rw [if_pos hopens, inside_eq hd]
        exact List.mem_cons_self
    | child _ hid henters ih =>
        split at ih
        · next hopens =>
            rw [if_pos hopens]
            exact mem_inside_of_child hd ih hid henters
        · simp at ih

/-- What is inside a node is among its descendants, in order. -/
theorem inside_sublist (hd : d.Forward) (p : Nat) :
    (d.inside p).Sublist (p :: d.descendants p) := by
  induction hdistance : d.size - p using Nat.strong_induction_on generalizing p with
  | _ distance ih =>
      rw [inside_eq hd, hd.descendants_eq]
      refine List.Sublist.cons_cons p ?_
      refine (List.filter_sublist.flatMap d.inside).trans ?_
      refine List.Sublist.flatMap_right _ fun child hchild => ?_
      have hforward := hd p child hchild
      exact ih (d.size - child) (by omega) child rfl

/-- No list of children is compiled twice with a component. -/
theorem nodup_compiled (h : d.Forest) (root : Nat) : (d.compiled root).Nodup := by
  unfold compiled
  split
  · refine List.Nodup.sublist (inside_sublist h.forward root) ?_
    refine List.nodup_cons.mpr ⟨fun hself => ?_, h.nodup_descendants root⟩
    exact Nat.lt_irrefl _ (lt_of_mem_below h.forward hself).1
  · exact List.nodup_nil

/-- Components start from the root of the document and from fragments, which are compiled with no
other component; so no list of children is compiled with two. -/
theorem Compiled.root_unique (h : d.Forest) {root' : Nat}
    (hroot : root = 0 ∨ (d.node root).type = .fragment)
    (hroot' : root' = 0 ∨ (d.node root').type = .fragment)
    (hp : d.Compiled root p) (hp' : d.Compiled root' p) : root = root' := by
  have hapart : ∀ {r p}, r = 0 ∨ (d.node r).type = .fragment → r ∈ d.children p →
      d.enters p r = true → False := by
    rintro r p (rfl | htype) hr henters
    · exact Nat.not_lt_zero _ (h.forward p 0 hr).1
    · exact (opens_of_enters henters).2 htype
  induction hp with
  | root =>
      cases hp' with
      | root => rfl
      | child _ hid henters => exact (hapart hroot hid henters).elim
  | @child q id _ hid henters ih =>
      cases hp' with
      | root => exact (hapart hroot' hid henters).elim
      | @child q' _ hq' hid' _ =>
          obtain rfl : q = q' := by
            have hparent := (h.parent_iff id q).mpr hid
            rw [(h.parent_iff id q').mpr hid'] at hparent
            exact (Option.some.inj hparent).symm
          exact ih hq'

end Compiled

end Document

end Stencil.Markup
