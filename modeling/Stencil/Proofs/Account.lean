import Stencil.Proofs.Ownership
import Stencil.Proofs.Quiet
import Stencil.Proofs.Tally

/-!
# What the walk accounts for

`Walk.Account` is the list of laws under which a relation between two states of the walk keeps
account of what is compiled: it does not notice the leaves, it adds up along the walk, and it says
what a chain of conditions, the invocation of a component and a text count.  Any such relation holds
of the walk of a whole component, with the total of what counts in the lists of siblings that are
compiled with it (`Walk.Account.walkComponent`).

An invocation is described by `WalkContext.Invokes`: which node, attributes and children each part of
the call was made from.
-/

namespace Stencil

open Stencil.Markup Stencil.Render Stencil.Source
open Stencil.Passes (defaultSlot)
open Stencil.Script (Expression Language)

namespace Render

/-- The inside of a branch. -/
def Branch.body : Branch → Frame
  | .mk _ body => body

/-- The name of the slot that some content is for. -/
def SlotBody.name : SlotBody → String
  | .mk name _ => name

/-- The content of a slot. -/
def SlotBody.body : SlotBody → Frame
  | .mk _ body => body

/-- The call of a component. -/
structure Call where
  component : String
  props : List Property
  slots : List SlotBody

/-- The call at a spot. -/
def Call.kind (call : Call) : SpotKind := .invoke call.component call.props call.slots

/-- The call at a spot of some kind. -/
def SpotKind.call? : SpotKind → Option Call
  | .invoke component props slots => some ⟨component, props, slots⟩
  | _ => none

end Render

/-- The property that a component is given by an attribute; references and actions give none. -/
def Markup.Attribute.property? (a : Attribute) : Option Property :=
  match a.kind, a.expression? with
  | .plain, _ => some (.value a.name.base a.parts)
  | .event, some handler => some (.event a.name.base handler)
  | .bind, some target => some (.bind a.name.base target)
  | _, _ => none

/-- Whether a node is a block with the content of a slot. -/
def Markup.Document.fillsSlot (d : Document) (id : Nat) : Bool :=
  (d.node id).type == .block .content

namespace WalkContext

/-- A frame is compiled from what is inside a block. -/
def IsInside (x : WalkContext) (id : Nat) (f : Frame) : Prop :=
  ∃ steps w, 2 * (x.document.size - id) ≤ steps ∧ f = (Walk.collect w (walkChildren x steps id)).1

/-- A branch is compiled from a block: it has its condition, and what is inside the block is its
body. -/
structure IsBranch (x : WalkContext) (id : Nat) (b : Branch) : Prop where
  condition : b.condition = match (x.document.node id).params.block with
    | some (.condition e) => some e
    | _ => none
  body : x.IsInside id b.body

/-- A conditional is compiled from a chain, branch by branch. -/
def Builds (x : WalkContext) (ids : List Nat) (branches : List Branch) : Prop :=
  List.Forall₂ x.IsBranch ids branches

/-- The content of a slot is compiled from a block: it is for the slot that the block names. -/
structure IsContent (x : WalkContext) (id : Nat) (s : SlotBody) : Prop where
  name : s.name = slotOf (x.document.node id)
  body : x.IsInside id s.body

/-- Nodes are compiled one after another into one frame; in between only other frames are filled. -/
inductive Leaves (x : WalkContext) : List Nat → Frame → Frame → Prop
  | nil (f : Frame) : Leaves x [] f f
  | cons {id : Nat} {ids : List Nat} {f : Frame} (w : Walk) {steps : Nat}
      (hsteps : 2 * (x.document.size - id) + 1 ≤ steps)
      (h : Leaves x ids (walkNode x steps id w).frame f) : Leaves x (id :: ids) w.frame f

/-- A call is compiled from the invocation of a component.  The blocks among its children that fill
slots are compiled one by one; the other children together make the content of the slot without a
name, which is left out if it renders nothing. -/
structure Invokes (x : WalkContext) (id : Nat) (call : Call) : Prop where
  element : ∃ e, (x.document.node id).element? = some e ∧ call.component = e.name ∧
    call.props = e.attributes.filterMap Attribute.property?
  slots : ∃ contents rest,
    List.Forall₂ x.IsContent ((x.document.children id).filter x.document.fillsSlot) contents ∧
    x.Leaves ((x.document.children id).filter fun child => !x.document.fillsSlot child) .empty rest ∧
    call.slots = if rest.isEmpty then contents else .mk defaultSlot rest :: contents

end WalkContext

/-- A relation that keeps account of what the walk compiles.  `loose` are frames that were filled
besides the one that is being filled. -/
structure Walk.Account {M : Type} [AddCommMonoid M] (x : WalkContext) (t : Tally M)
    (R : Walk → Walk → List Frame → M → Prop) : Prop where
  outer : ∀ {w w' loose m}, R w w' loose m → w'.component.stack.tail = w.component.stack.tail
  quiet : ∀ {w w'}, w.Quiet w' → R w w' [] 0
  trans : ∀ {w₁ w₂ w₃ loose loose' m m'}, R w₁ w₂ loose m → R w₂ w₃ loose' m' →
    R w₁ w₃ (loose ++ loose') (m + m')
  /-- What was filled in a frame of its own, once the frame is ended. -/
  popFrame : ∀ {w w' loose m}, R (w.map (·.pushFrame)) w' loose m →
    R w { w' with component := w'.component.popFrame.2 }
      (w'.component.popFrame.1.frames ++ loose) m
  /-- A frame that renders nothing may be forgotten. -/
  forget : ∀ {w w' loose m} {inner : Frame}, R w w' (inner.frames ++ loose) m →
    inner.isEmpty = true → R w w' loose m
  loop : ∀ {w w' m} {body : Frame}, R w w' body.frames m → ∀ reference header,
    R w (w'.spot reference (.each header body)) [] m
  slot : ∀ {w w' m name} {fallback : Option Frame}, R w w' (SpotKind.slot name fallback).frames m →
    ∀ reference, R w (w'.spot reference (.slot name fallback)) [] m
  chain : ∀ {w w' m ids branches}, x.Builds ids branches → R w w' (branchFrames branches) m →
    ∀ reference, R w (w'.spot reference (.conditional branches)) [] (t.chain ids + m)
  stray : ∀ {id kind}, (x.document.node id).type = .block kind →
    kind = .elseIf ∨ kind = .elseBlock → ∀ w : Walk,
    R w (w.warn (.withoutIf kind) (x.document.node id).span) [] (t.stray id)
  call : ∀ {w w' m id call}, x.Invokes id call → R w w' (slotFrames call.slots) m →
    ∀ reference, R w (w'.spot reference call.kind) [] (t.call id + m)
  text : ∀ {id content}, (x.document.node id).content = .text content → ∀ w : Walk,
    R w (walkText w content) [] (t.text id)
  noText : ∀ {id}, (∀ content, (x.document.node id).content ≠ .text content) → t.text id = 0
  /-- A text that may stand between the blocks of a chain does not count. -/
  gap : ∀ id, x.document.isGap id = true → x.document.isText id = true → t.text id = 0

/-- What counts where a visitor comes. -/
def Visitor.Counts {M : Type} (R : Walk → Walk → List Frame → M → Prop) (visit : Visitor) (id : Nat)
    (m : M) : Prop :=
  ∀ w : Walk, R w (visit id w) [] m

/-- The properties of a call do not depend on the state of the walk. -/
theorem walkProperties_eq (component : String) (reference : Nat) (as : List Attribute) (w : Walk) :
    (walkProperties component reference as w).1 = as.filterMap Attribute.property? := by
  induction as generalizing w with
  | nil => rfl
  | cons a rest ih =>
      unfold walkProperties
      dsimp only
      split <;> simp_all [Attribute.property?]

namespace Walk.Account

variable {M : Type} [AddCommMonoid M] {x : WalkContext} {t : Tally M}
  {R : Walk → Walk → List Frame → M → Prop} {children self : Visitor}

section Steps

variable (h : Account x t R) {w w₁ w₂ w₃ : Walk} {loose : List Frame} {m : M}
include h

theorem refl (w : Walk) : R w w [] 0 := h.quiet (.refl w)

theorem quiet_trans (hquiet : w₁.Quiet w₂) (hrest : R w₂ w₃ loose m) : R w₁ w₃ loose m := by
  have hall := h.trans (h.quiet hquiet) hrest
  rwa [List.nil_append, zero_add] at hall

theorem trans_quiet (hfirst : R w₁ w₂ loose m) (hquiet : w₂.Quiet w₃) : R w₁ w₃ loose m := by
  have hall := h.trans hfirst (h.quiet hquiet)
  rwa [List.append_nil, add_zero] at hall

/-- The inside of a block, walked into a frame of its own. -/
theorem collect {id : Nat} (hchildren : children.Counts R id m) (w : Walk) :
    R w (w.collect (children id)).2 (w.collect (children id)).1.frames m := by
  have hpopped := h.popFrame (hchildren (w.map (·.pushFrame)))
  rw [List.append_nil] at hpopped
  exact hpopped

/-- What is filled in a frame of its own leaves the frame around it as it was. -/
theorem frame_collect {id : Nat} (hchildren : children.Counts R id m) (w : Walk) :
    (w.collect (children id)).2.frame = w.frame := by
  have houter : (children id (w.map (·.pushFrame))).component.stack.tail = w.component.stack :=
    h.outer (hchildren _)
  have hpopped := (Component.popFrame_of_stack houter).2
  rw [Component.stack_eq, w.component.stack_eq] at hpopped
  exact (List.cons.inj hpopped).1

end Steps

section Nodes

variable (h : Account x t R)
include h

theorem walkBranches (ids : List Nat)
    (hchildren : ∀ id ∈ ids, children.Counts R id (x.document.total t id)) (w : Walk) :
    R w (walkBranches x.document children ids w).2
      (branchFrames (Stencil.walkBranches x.document children ids w).1)
      (ids.map (x.document.total t)).sum := by
  induction ids generalizing w with
  | nil => exact h.refl w
  | cons id rest ih =>
      have hfirst := h.collect (hchildren id List.mem_cons_self) w
      exact h.trans hfirst (ih (fun i hi => hchildren i (List.mem_cons_of_mem id hi)) _)

omit h in
/-- The branches of a conditional are compiled from the blocks one by one. -/
theorem walkBranches_builds {steps : Nat} (ids : List Nat)
    (hsteps : ∀ id ∈ ids, 2 * (x.document.size - id) ≤ steps) (w : Walk) :
    x.Builds ids (Stencil.walkBranches x.document (walkChildren x steps) ids w).1 := by
  induction ids generalizing w with
  | nil => exact .nil
  | cons id rest ih =>
      refine .cons ⟨rfl, steps, w, hsteps id List.mem_cons_self, rfl⟩ (ih ?_ _)
      exact fun i hi => hsteps i (List.mem_cons_of_mem id hi)

/-- **A chain** becomes one conditional. -/
theorem walkChain {steps : Nat} (ids : List Nat)
    (hsteps : ∀ id ∈ ids, 2 * (x.document.size - id) ≤ steps)
    (hchildren : ∀ id ∈ ids, (walkChildren x steps).Counts R id (x.document.total t id)) (w : Walk) :
    R w (Stencil.walkChain x.document (walkChildren x steps) ids w) []
      (t.chain ids + (ids.map (x.document.total t)).sum) := by
  have hbranches := h.walkBranches ids hchildren w.anchor.2
  exact h.chain (walkBranches_builds ids hsteps _) (h.quiet_trans (.anchor w) hbranches) _

theorem walkElement {id : Nat} {m : M} (hchildren : children.Counts R id m) (w : Walk) :
    R w (Stencil.walkElement x children id w) []
      (if (match (x.document.node id).element? with
        | some e => !isVoid e.name && e.raw.isNone
        | none => false) then m else 0) := by
  cases he : (x.document.node id).element? with
  | none =>
      simp only [Stencil.walkElement, he]
      exact h.refl w
  | some e =>
      have hopening : w.Quiet (if (x.document.node id).params.reference ||
            e.attributes.any Attribute.needsReference then
          walkOpening x id e (some w.allocate.1) w.allocate.2
        else walkOpening x id e none w) := by
        split
        · exact (Walk.Quiet.allocate w).trans (walkOpening_quiet x id e _ _)
        · exact walkOpening_quiet x id e _ _
      rw [walkElement_eq x children id w he]
      refine h.quiet_trans hopening ?_
      unfold walkClosing
      by_cases hvoid : isVoid e.name = true
      · simp only [hvoid, if_true]
        exact h.refl _
      · cases hraw : e.raw with
        | some raw =>
            simp only [hvoid, hraw]
            exact h.quiet ((Walk.Quiet.html _ _).trans (.html _ _))
        | none =>
            simp only [hvoid, hraw]
            exact h.trans_quiet (hchildren _) (.html _ _)

/-- The children of an invocation, one by one: those that fill a slot into frames of their own. -/
theorem walkContents (ids : List Nat)
    (hself : ∀ id ∈ ids, self.Counts R id (x.document.alonePart t id))
    (hchildren : ∀ id ∈ ids, (x.document.node id).type ≠ .component →
      children.Counts R id (x.document.total t id)) (w : Walk) :
    R w (walkContents x.document self children ids w).2
      (slotFrames (Stencil.walkContents x.document self children ids w).1)
      (ids.map (x.document.alonePart t)).sum := by
  induction ids generalizing w with
  | nil => exact h.refl w
  | cons id rest ih =>
      have ih := ih (fun i hi => hself i (List.mem_cons_of_mem id hi))
        (fun i hi => hchildren i (List.mem_cons_of_mem id hi))
      rw [List.map_cons, List.sum_cons]
      unfold Stencil.walkContents
      dsimp only
      split
      · next hcontent =>
          have htype : (x.document.node id).type = .block .content := by simpa using hcontent
          have halone : x.document.alonePart t id = x.document.total t id := by
            simp [Document.alonePart_eq, Node.opens, htype]
          have hfirst := h.collect (hchildren id List.mem_cons_self (by simp [htype])) w
          rw [halone]
          exact h.trans hfirst (ih _)
      · exact h.trans (hself id List.mem_cons_self w) (ih _)

/-- What the children of an invocation are made into. -/
theorem walkContents_fills {steps : Nat} (ids : List Nat)
    (hsteps : ∀ id ∈ ids, 2 * (x.document.size - id) + 1 ≤ steps)
    (hchildren : ∀ id ∈ ids, (x.document.node id).type ≠ .component →
      (walkChildren x steps).Counts R id (x.document.total t id)) (w : Walk) :
    let filled := Stencil.walkContents x.document (walkNode x steps) (walkChildren x steps) ids w
    List.Forall₂ x.IsContent (ids.filter x.document.fillsSlot) filled.1 ∧
      x.Leaves (ids.filter fun child => !x.document.fillsSlot child) w.frame filled.2.frame := by
  induction ids generalizing w with
  | nil => exact ⟨.nil, .nil _⟩
  | cons id rest ih =>
      have ih := ih (fun i hi => hsteps i (List.mem_cons_of_mem id hi))
        (fun i hi => hchildren i (List.mem_cons_of_mem id hi))
      have hid := hsteps id List.mem_cons_self
      unfold Stencil.walkContents
      dsimp only
      split
      · next hcontent =>
          have hfills : x.document.fillsSlot id = true := hcontent
          have htype : (x.document.node id).type = .block .content := by simpa using hcontent
          have hframe := h.frame_collect (hchildren id List.mem_cons_self (by simp [htype])) w
          obtain ⟨hcontents, hleaves⟩ := ih (w.collect (walkChildren x steps id)).2
          rw [hframe] at hleaves
          rw [List.filter_cons_of_pos hfills, List.filter_cons_of_neg (by simp [hfills])]
          exact ⟨.cons ⟨rfl, steps, w, by omega, rfl⟩ hcontents, hleaves⟩
      · next hcontent =>
          have hfills : x.document.fillsSlot id = false := by simpa [Document.fillsSlot] using hcontent
          obtain ⟨hcontents, hleaves⟩ := ih (walkNode x steps id w)
          rw [List.filter_cons_of_neg (by simp [hfills]), List.filter_cons_of_pos (by simp [hfills])]
          exact ⟨hcontents, .cons w hid hleaves⟩

/-- **An invocation** compiles its children one by one. -/
theorem walkInvocation {steps id : Nat} {e : Element}
    (he : (x.document.node id).element? = some e)
    (hsteps : ∀ child ∈ x.document.children id, 2 * (x.document.size - child) + 1 ≤ steps)
    (hself : ∀ child ∈ x.document.children id,
      (walkNode x steps).Counts R child (x.document.alonePart t child))
    (hchildren : ∀ child ∈ x.document.children id, (x.document.node child).type ≠ .component →
      (walkChildren x steps).Counts R child (x.document.total t child)) (w : Walk) :
    R w (Stencil.walkInvocation x.document (walkNode x steps) (walkChildren x steps) id w) []
      (t.call id + ((x.document.children id).map (x.document.alonePart t)).sum) := by
  simp only [Stencil.walkInvocation, he]
  have hprops := (Walk.Quiet.anchor w).trans
    (walkProperties_quiet e.name w.anchor.1 e.attributes w.anchor.2)
  have hnamed := walkProperties_eq e.name w.anchor.1 e.attributes w.anchor.2
  generalize walkProperties e.name w.anchor.1 e.attributes w.anchor.2 = props at hprops hnamed ⊢
  have hbelow := h.walkContents (x.document.children id) hself hchildren
    (props.2.map (·.pushFrame))
  obtain ⟨hcontents, hleaves⟩ := h.walkContents_fills (x.document.children id) hsteps hchildren
    (props.2.map (·.pushFrame))
  have hframe := (Component.popFrame_of_stack (h.outer hbelow)).1
  have hpopped := h.quiet_trans hprops (h.popFrame hbelow)
  generalize Stencil.walkContents x.document (walkNode x steps) (walkChildren x steps)
    (x.document.children id) (props.2.map (·.pushFrame)) = filled at hcontents hleaves hframe hpopped ⊢
  have hinvokes : x.Invokes id ⟨e.name, props.1, if filled.2.component.popFrame.1.isEmpty then filled.1
      else .mk defaultSlot filled.2.component.popFrame.1 :: filled.1⟩ := by
    refine ⟨⟨e, he, rfl, hnamed⟩, filled.1, filled.2.component.popFrame.1, hcontents, ?_, rfl⟩
    rw [hframe]
    exact hleaves
  refine h.call hinvokes ?_ _
  split
  · next hempty => exact h.forget hpopped hempty
  · exact hpopped

/-- The invocation at a node, if it is an element. -/
theorem walkInvocation_total (hd : x.document.Forward) {steps id : Nat}
    (htype : (x.document.node id).type = .component)
    (hsteps : 2 * (x.document.size - id) ≤ steps)
    (hself : ∀ child ∈ x.document.children id,
      (walkNode x steps).Counts R child (x.document.alonePart t child))
    (hchildren : ∀ child ∈ x.document.children id, (x.document.node child).type ≠ .component →
      (walkChildren x steps).Counts R child (x.document.total t child)) (w : Walk) :
    R w (Stencil.walkInvocation x.document (walkNode x steps) (walkChildren x steps) id w) []
      (if (x.document.node id).element?.isSome then x.document.total t id else 0) := by
  cases he : (x.document.node id).element? with
  | none =>
      simp only [Stencil.walkInvocation, he]
      exact h.refl w
  | some e =>
      have hpart : (x.document.children id).map (x.document.alonePart t) =
          (x.document.children id).map (x.document.part t id) := by
        refine List.map_congr_left fun child _ => ?_
        exact (Document.part_eq_alonePart (.inr htype)
          fun _ => by simp [Document.headOf?, htype]).symm
      have hbelow : ∀ child ∈ x.document.children id,
          2 * (x.document.size - child) + 1 ≤ steps := by
        intro child hchild
        have hforward := hd id child hchild
        omega
      have hall := h.walkInvocation he hbelow hself hchildren w
      have hcalled : x.document.called t id = t.call id := by simp [Document.called, htype]
      rw [hpart, ← hcalled, ← Document.total_eq_sum_part hd] at hall
      exact hall

/-- **A loop** has a frame for its body. -/
theorem walkLoop {id : Nat} {m : M} (hchildren : children.Counts R id m) (w : Walk) :
    R w (Stencil.walkLoop x.document children id w) []
      (if (match (x.document.node id).params.block with
        | some (.loop _) => true
        | _ => false) then m else 0) := by
  simp only [Stencil.walkLoop]
  cases (x.document.node id).params.block with
  | none => exact h.refl w
  | some params =>
      cases params with
      | loop header => exact h.loop (h.quiet_trans (.anchor w) (h.collect hchildren _)) _ _
      | condition _ | slot _ => exact h.refl w

/-- **A slot** has a frame for what it shows if it is not filled, unless that renders nothing. -/
theorem walkSlot {id : Nat} {m : M} (hchildren : children.Counts R id m) (w : Walk) :
    R w (Stencil.walkSlot x.document children id w) [] m := by
  have hbody := h.quiet_trans (.anchor w) (h.collect hchildren w.anchor.2)
  simp only [Stencil.walkSlot]
  split
  · next hempty =>
      rw [← List.append_nil (Frame.frames _)] at hbody
      exact h.slot (h.forget hbody hempty) _
  · exact h.slot hbody _

/-- **Siblings**, divided into chains and single nodes. -/
theorem walkGroups {steps p : Nat} {ids : List Nat} {gs : List Group}
    (hfill : ∀ id, (x.document.node id).FillsGaps) (hgroups : x.document.Grouped p ids gs)
    (hsteps : ∀ id ∈ ids, 2 * (x.document.size - id) ≤ steps)
    (hself : ∀ id ∈ ids, self.Counts R id (x.document.alonePart t id))
    (hchildren : ∀ id ∈ ids, (x.document.node id).type ≠ .component →
      (walkChildren x steps).Counts R id (x.document.total t id)) (w : Walk) :
    R w (gs.foldl (fun w g =>
      match g with
      | .single child => self child w
      | .chain ids => Stencil.walkChain x.document (walkChildren x steps) ids w) w) []
      (ids.map (x.document.part t p)).sum := by
  induction hgroups generalizing w with
  | nil => exact h.refl w
  | @chain id taken after gs hid htaken hbetween hrest ih =>
      have hblocks : ∀ i ∈ id :: x.document.followers p id,
          i ∈ id :: (taken ++ after) ∧ (x.document.node i).type ≠ .component := by
        intro i hi
        rcases List.mem_cons.mp hi with rfl | hi
        · refine ⟨List.mem_cons_self, fun htype => ?_⟩
          simp [Document.starts, htype] at hid
        · rw [htaken] at hi
          obtain ⟨hmem, hcontinues⟩ := List.mem_filter.mp hi
          refine ⟨by simp [hmem], fun htype => ?_⟩
          simp [Document.continues, htype] at hcontinues
      have hchain := h.walkChain (id :: x.document.followers p id)
        (fun i hi => hsteps i (hblocks i hi).1)
        (fun i hi => hchildren i (hblocks i hi).1 (hblocks i hi).2) w
      have hafter := ih (fun i hi => hsteps i (by simp [hi])) (fun i hi => hself i (by simp [hi]))
        (fun i hi => hchildren i (by simp [hi]))
        (Stencil.walkChain x.document (walkChildren x steps) (id :: x.document.followers p id) w)
      rw [← Document.sum_part_chain hfill h.gap hid htaken hbetween] at hchain
      have hall := h.trans hchain hafter
      rwa [← List.sum_append, ← List.map_append, List.cons_append] at hall
  | @single id rest gs hid hstray hrest ih =>
      have hfirst := hself id List.mem_cons_self w
      rw [← Document.part_eq_alonePart (.inl hid) hstray] at hfirst
      rw [List.map_cons, List.sum_cons]
      exact h.trans hfirst (ih (fun i hi => hsteps i (List.mem_cons_of_mem id hi))
        (fun i hi => hself i (List.mem_cons_of_mem id hi))
        (fun i hi => hchildren i (List.mem_cons_of_mem id hi)) _)

/-- **A node**, given what counts at its children. -/
theorem walkNode (hd : x.document.Forward) {steps id : Nat}
    (hsteps : 2 * (x.document.size - id) ≤ steps)
    (hself : ∀ child ∈ x.document.children id,
      (walkNode x steps).Counts R child (x.document.alonePart t child))
    (hchildren : (x.document.node id).type ≠ .component →
      (walkChildren x steps).Counts R id (x.document.total t id))
    (hinside : ∀ child ∈ x.document.children id, (x.document.node child).type ≠ .component →
      (walkChildren x steps).Counts R child (x.document.total t child)) :
    (Stencil.walkNode x (steps + 1)).Counts R id (x.document.alonePart t id) := by
  intro w
  rw [Document.alonePart_eq, Node.opens]
  simp only [Stencil.walkNode]
  cases htype : (x.document.node id).type with
  | document => exact hchildren (by simp [htype]) w
  | element => exact h.walkElement (hchildren (by simp [htype])) w
  | fragment | style => exact h.refl w
  | component => exact h.walkInvocation_total hd htype hsteps hself hinside w
  | script => exact h.quiet (walkScript_quiet x _ w)
  | text =>
      dsimp only
      split
      · next content hcontent => exact h.text hcontent w
      · next hcontent =>
          rw [h.noText hcontent]
          exact h.refl w
  | comment =>
      dsimp only
      split
      · exact h.quiet (.html w _)
      · exact h.refl w
  | block kind =>
      have hown := hchildren (by simp [htype])
      cases kind with
      | ifBlock =>
          have hall := h.walkChain [id] (by simpa using hsteps) (by simpa using hown) w
          simpa using hall
      | forBlock => exact h.walkLoop hown w
      | slot => exact h.walkSlot hown w
      | content => exact h.quiet_trans (.warn w (by simp) _) (hown _)
      | elseIf | elseBlock => exact h.stray htype (by simp) w

/-- **The walk of a node and of its children.**  The steps that are left are enough for all that is
below. -/
theorem walk (hforest : x.document.Forest) (hfill : ∀ id, (x.document.node id).FillsGaps)
    (steps : Nat) :
    (∀ id, 2 * (x.document.size - id) + 1 ≤ steps →
      (Stencil.walkNode x steps).Counts R id (x.document.alonePart t id)) ∧
    ∀ id, (x.document.node id).type ≠ .component → 2 * (x.document.size - id) ≤ steps →
      (walkChildren x steps).Counts R id (x.document.total t id) := by
  have hd := hforest.forward
  have hparts : ∀ id, (x.document.node id).type ≠ .component → x.document.total t id =
      ((x.document.children id).map (x.document.part t id)).sum := by
    intro id htype
    rw [Document.total_eq_sum_part hd, Document.called, if_neg htype, zero_add]
  induction steps with
  | zero =>
      refine ⟨fun id hsteps => by omega, fun id htype hsteps w => ?_⟩
      have hnone : x.document.children id = [] := by
        rw [Document.children, Document.node_of_size_le (by omega)]
        rfl
      rw [hparts id htype, hnone]
      exact h.refl w
  | succ steps ih =>
      obtain ⟨ihnode, ihchildren⟩ := ih
      have hbelow : ∀ id, 2 * (x.document.size - id) ≤ steps + 1 →
          ∀ child ∈ x.document.children id, 2 * (x.document.size - child) + 1 ≤ steps := by
        intro id hsteps child hchild
        have hforward := hd id child hchild
        omega
      have hself : ∀ id, 2 * (x.document.size - id) ≤ steps + 1 → ∀ child ∈ x.document.children id,
          (Stencil.walkNode x steps).Counts R child (x.document.alonePart t child) :=
        fun id hsteps child hchild => ihnode child (hbelow id hsteps child hchild)
      have hinside : ∀ id, 2 * (x.document.size - id) ≤ steps + 1 →
          ∀ child ∈ x.document.children id, (x.document.node child).type ≠ .component →
            (walkChildren x steps).Counts R child (x.document.total t child) := by
        intro id hsteps child hchild htype
        exact ihchildren child htype (by have := hbelow id hsteps child hchild; omega)
      refine ⟨fun id hsteps => ?_, fun id htype hsteps w => ?_⟩
      · exact h.walkNode hd (by omega) (hself id (by omega))
          (fun htype => ihchildren id htype (by omega)) (hinside id (by omega))
      · rw [hparts id htype]
        refine h.walkGroups hfill (Document.grouped_groups hfill htype (hforest.nodup id)) ?_
          (hself id hsteps) (hinside id hsteps) w
        intro child hchild
        have := hbelow id hsteps child hchild
        omega

/-- **The walk of a component**, from the document or from a fragment. -/
theorem walkComponent (hforest : x.document.Forest)
    (hfill : ∀ id, (x.document.node id).FillsGaps) (w : Walk)
    (hroot : (x.document.node w.component.root).type =
      if w.component.root = 0 then .document else .fragment) :
    R w (Stencil.walkComponent x w) []
      ((x.document.compiled w.component.root).map (x.document.tallied t)).sum := by
  have hstart := Walk.Quiet.html w (injectedStyle x.options w.component)
  have hsame : (w.html (injectedStyle x.options w.component)).component.root = w.component.root :=
    Component.root_of_outline (Walk.blind_outline.html w _)
  have hcomponent : (x.document.node w.component.root).type ≠ .component := by
    rw [hroot]
    split <;> simp
  have hchildren := (h.walk hforest hfill (2 * x.document.size + 2)).2 w.component.root
    hcomponent (by omega)
  refine h.quiet_trans hstart ?_
  simp only [Stencil.walkComponent, hsame]
  by_cases hzero : w.component.root = 0
  · rw [if_pos hzero] at hroot
    rw [if_pos (by simpa using hzero), Document.compiled, if_pos (by simp [Node.opens, hroot])]
    exact hchildren _
  · rw [if_neg hzero] at hroot
    have helement := h.walkElement hchildren (w.html (injectedStyle x.options w.component))
    have htotal : ((x.document.compiled w.component.root).map (x.document.tallied t)).sum =
        if (x.document.node w.component.root).opens then x.document.total t w.component.root
        else 0 := by
      unfold Document.compiled
      split <;> rfl
    rw [if_neg (by simpa using hzero), htotal]
    simp only [Node.opens, hroot]
    cases he : (x.document.node w.component.root).element? <;> simpa [he] using helement

end Nodes

section Templates

/-- What a relation says of a finished component: it leads from an empty frame to the frame of the
component. -/
def Finished (x : WalkContext) (t : Tally M) (R : Walk → Walk → List Frame → M → Prop)
    (c : Component) : Prop :=
  ∃ w w' : Walk, w.frame = .empty ∧ w'.frame = c.base ∧
    R w w' [] ((x.document.compiled c.root).map (x.document.tallied t)).sum

variable (h : Account x t R) (hforest : x.document.Forest)
  (hfill : ∀ id, (x.document.node id).FillsGaps)
include h hforest hfill

/-- **A component** is walked as a whole: no frame is left open. -/
theorem finished {c : Component} (imports : Imports) (hbase : c.base = .empty)
    (hnested : c.nested = [])
    (hroot : (x.document.node c.root).type = if c.root = 0 then .document else .fragment) :
    Finished x t R (Stencil.walkComponent x ⟨c, imports, []⟩).component := by
  have hwalk := h.walkComponent hforest hfill ⟨c, imports, []⟩ hroot
  have hkeeps : (Stencil.walkComponent x ⟨c, imports, []⟩).component.root = c.root :=
    Component.root_of_outline (outline_walkComponent x _)
  have hinner : (Stencil.walkComponent x ⟨c, imports, []⟩).component.nested = [] := by
    have hlength := congrArg List.length (h.outer hwalk)
    simp only [Component.stack, hnested, List.length_tail, List.length_append, List.length_cons,
      List.length_nil] at hlength
    exact List.eq_nil_of_length_eq_zero (by omega)
  refine ⟨⟨c, imports, []⟩, Stencil.walkComponent x ⟨c, imports, []⟩, ?_, ?_, ?_⟩
  · simp [Walk.frame, Component.frame, hnested, hbase]
  · simp [Walk.frame, Component.frame, hinner]
  · rw [hkeeps]
    exact hwalk

/-- **All components** of a template are finished. -/
theorem components (hzero : (x.document.node 0).type = .document) :
    ∀ c ∈ (({ options := x.options } : Template).addDocument x.lang x.document).1.components,
      Finished x t R c := by
  have hadd : ∀ (t' : Template) (root : Nat) (name : String) (isDefault : Bool),
      (x.document.node root).type = (if root = 0 then .document else .fragment) →
      t'.options = x.options → (∀ c ∈ t'.components, Finished x t R c) →
      (t'.addComponent x.lang x.document root name isDefault).1.options = x.options ∧
        ∀ c ∈ (t'.addComponent x.lang x.document root name isDefault).1.components,
          Finished x t R c := by
    intro t' root name isDefault hroot hoptions hall
    obtain ⟨hbase, hnested, -⟩ := t'.analyzed_eq x.lang x.document root name isDefault
    have hname := t'.root_analyzed x.lang x.document root name isDefault
    have hlast := h.finished hforest hfill t'.imports hbase hnested
      (by rw [hname]; exact hroot)
    rw [Template.addComponent_eq, hoptions]
    refine ⟨rfl, fun c hc => ?_⟩
    rcases List.mem_append.mp hc with hc | hc
    · exact hall c hc
    · rw [List.mem_singleton.mp hc]
      exact hlast
  have hfold : ∀ (ids : List Nat) (s : Template × List Diagnostic),
      (s.1.options = x.options ∧ ∀ c ∈ s.1.components, Finished x t R c) →
      ∀ c ∈ (ids.foldl (Template.addFragment x.lang x.document) s).1.components,
        Finished x t R c := by
    intro ids
    induction ids with
    | nil => exact fun s hs => hs.2
    | cons id rest ih =>
        rintro ⟨t', found⟩ hs
        refine ih _ ?_
        rcases t'.addFragment_cases x.lang x.document found id with
          ⟨-, hstep⟩ | ⟨name, hfragment, ⟨-, hstep⟩ | ⟨-, hstep⟩⟩
        · rw [hstep]
          exact hs
        · rw [hstep]
          exact hs
        · have htype := (Document.fragment?_eq_some_iff.mp hfragment).2.1
          have hne : id ≠ 0 := by
            rintro rfl
            simp [hzero] at htype
          rw [hstep]
          dsimp only
          exact hadd t' id name false (by rw [if_neg hne, htype]) hs.1 hs.2
  unfold Template.addDocument
  refine hfold x.document.walk _ (hadd _ 0 _ true ?_ rfl (by simp))
  rw [hzero, if_pos rfl]

end Templates

end Walk.Account

end Stencil
