import Stencil.Proofs.Gathered

/-!
# Slots of a call are compiled from the children of its invocation

Each invocation of a component whose node is compiled leaves one call, and each call comes from one
invocation (`Component.Called`).  The call has the content of a slot for each block among the children
that fills one, in document order, and in front of them, unless it renders nothing, what the other
children make.  The contents are entries of one object, so one of them overrides another if they are
for the same slot, and `WalkContext.Invokes.names` says when they are.
-/

namespace Stencil

open Stencil.Markup Stencil.Render
open Stencil.Passes (defaultSlot)
open Stencil.Script (Language)

/-- The calls in a frame and in the frames inside it. -/
def Render.Frame.calls (f : Frame) : Multiset Call := f.picked SpotKind.call?

/-- What counts is each invocation, once. -/
def callTally : Tally (Multiset Nat) where
  chain _ := 0
  stray _ := 0
  call id := {id}
  text _ := 0

theorem Render.SpotKind.call?_of_isPlain {kind : SpotKind} (h : kind.isPlain = true) :
    kind.call? = none := by
  cases kind <;> simp_all [SpotKind.isPlain, SpotKind.call?]

/-- **The walk calls** a component for each invocation. -/
theorem Walk.Picks.calls (x : WalkContext) : Walk.Account x callTally
    fun w w' loose ids => w.Picks SpotKind.call? x.Invokes w' loose ids where
  outer h := h.outer
  quiet h := .quiet (fun _ => SpotKind.call?_of_isPlain) h
  trans := Walk.Picks.trans
  popFrame h := h.popFrame
  forget h hinner := h.forget hinner
  loop h reference header := h.spot rfl reference
  slot h reference := h.spot rfl reference
  chain _ h reference := by
    rw [callTally, zero_add]
    exact h.spot rfl reference
  stray _ _ w := ⟨rfl, 0, (add_zero _).symm, by simp [callTally]⟩
  call hinvokes h reference := h.made (Call.kind _) rfl hinvokes reference
  text _ w := .quiet (fun _ => SpotKind.call?_of_isPlain) (walkText_quiet w _)
  noText _ := rfl
  gap _ _ _ := rfl

namespace Markup.Document

/-- The invocations whose children are compiled with the component of a root. -/
def invocations (d : Document) (root : Nat) : List Nat :=
  (d.compiled root).filter fun id => (d.node id).type == .component

/-- The blocks among the children of a node that fill slots. -/
def slotBlocks (d : Document) (id : Nat) : List Nat := (d.children id).filter d.fillsSlot

/-- The other children of a node. -/
def looseChildren (d : Document) (id : Nat) : List Nat :=
  (d.children id).filter fun child => !d.fillsSlot child

/-- The names of the slots that the blocks among the children of a node fill. -/
def slotNames (d : Document) (id : Nat) : List String :=
  (d.slotBlocks id).map fun block => slotOf (d.node block)

end Markup.Document

/-- All calls of a component are compiled from the invocations that are compiled with it. -/
def Component.Called (x : WalkContext) (c : Component) : Prop :=
  Multiset.Rel x.Invokes ↑(x.document.invocations c.root) c.base.calls

theorem sum_map_called (d : Document) (ids : List Nat) : (ids.map (d.tallied callTally)).sum =
    ((↑(ids.filter fun id => (d.node id).type == .component) : Multiset Nat)) := by
  have hown : ∀ id, d.tallied callTally id =
      if (d.node id).type == .component then {id} else 0 := by
    intro id
    simp [Document.tallied, Document.called, callTally]
  have hone : ∀ ids : List Nat, (ids.map fun id => ({id} : Multiset Nat)).sum = ↑ids := by
    intro ids
    induction ids with
    | nil => rfl
    | cons id rest ih => rw [List.map_cons, List.sum_cons, ih]; rfl
  rw [List.map_congr_left fun id _ => hown id, Document.sum_map_guarded, hone]

theorem Walk.Account.Finished.called {x : WalkContext} {c : Component}
    (h : Walk.Account.Finished x callTally
      (fun w w' loose ids => w.Picks SpotKind.call? x.Invokes w' loose ids) c) : c.Called x := by
  obtain ⟨w, w', hempty, hbase, -, added, hadded, hrel⟩ := h
  have hnone : w.frame.picked SpotKind.call? = 0 := by
    rw [hempty]
    rfl
  rw [hnone, zero_add, hbase] at hadded
  rw [sum_map_called, pickedIn_nil, add_zero, ← hadded] at hrel
  exact hrel

/-- Contents are for the slots that their blocks name. -/
theorem WalkContext.map_name_contents {x : WalkContext} {ids : List Nat} {contents : List SlotBody}
    (h : List.Forall₂ x.IsContent ids contents) :
    contents.map SlotBody.name = ids.map fun block => slotOf (x.document.node block) := by
  induction h with
  | nil => rfl
  | cons hcontent _ ih => rw [List.map_cons, List.map_cons, hcontent.name, ih]

/-- **The names of the slots** of a call: one for each block that fills a slot, and before them that
of the slot without a name, unless what the other children make renders nothing.  No content overrides
another one exactly if the blocks are for different slots, and none of them for the slot without a
name if the other children fill it. -/
theorem WalkContext.Invokes.names {x : WalkContext} {id : Nat} {call : Call}
    (h : x.Invokes id call) : ∃ rest, x.Leaves (x.document.looseChildren id) .empty rest ∧
      call.slots.map SlotBody.name =
        (if rest.isEmpty then [] else [defaultSlot]) ++ x.document.slotNames id ∧
      ((call.slots.map SlotBody.name).Nodup ↔ (x.document.slotNames id).Nodup ∧
        (rest.isEmpty = false → defaultSlot ∉ x.document.slotNames id)) := by
  obtain ⟨contents, rest, hcontents, hleaves, hslots⟩ := h.slots
  have hnames : call.slots.map SlotBody.name =
      (if rest.isEmpty then [] else [defaultSlot]) ++ x.document.slotNames id := by
    rw [Document.slotNames, Document.slotBlocks, ← map_name_contents hcontents, hslots]
    split <;> rfl
  refine ⟨rest, hleaves, hnames, ?_⟩
  rw [hnames]
  by_cases hempty : rest.isEmpty = true
  · simp [hempty]
  · simp [hempty, and_comm]

/-- **Every child of an invocation is compiled into one slot.**  Let a document be made from a
template that was read, and let its components be built.  The calls of a component are compiled from
the invocations that are compiled with it, one from each: the blocks that fill slots become the
contents of the slots they name, in document order, and all other children in document order the
content of the slot without a name.  The names of the slots of a call differ exactly if the names of
the blocks do and none of them is that of the slot that the other children fill. -/
theorem addDocument_calls (lang : Language) (o o' : Options) (source : String)
    (h : (parseTemplate lang o source).error = none) :
    let d := (parseTemplate lang o source).document
    let x : WalkContext := ⟨lang, o', d⟩
    ∀ c ∈ (({ options := o' } : Template).addDocument lang d).1.components,
      (d.invocations c.root).Nodup ∧
      (∀ id, id ∈ d.invocations c.root ↔ d.Compiled c.root id ∧ (d.node id).type = .component) ∧
      c.Called x ∧
      ∀ id call, x.Invokes id call → ∃ rest, x.Leaves (d.looseChildren id) .empty rest ∧
        call.slots.map SlotBody.name =
          (if rest.isEmpty then [] else [defaultSlot]) ++ d.slotNames id ∧
        ((call.slots.map SlotBody.name).Nodup ↔ (d.slotNames id).Nodup ∧
          (rest.isEmpty = false → defaultSlot ∉ d.slotNames id)) := by
  intro d x c hc
  have hforest : d.Forest := parseTemplate_forest h
  have hfinished := (Walk.Picks.calls x).components hforest (parseTemplate_fillsGaps h)
    (parseTemplate_root h) c hc
  refine ⟨(Document.nodup_compiled hforest c.root).filter _, fun id => ?_, hfinished.called,
    fun id call hinvokes => hinvokes.names⟩
  rw [Document.invocations, List.mem_filter, Document.mem_compiled_iff hforest.forward, beq_iff_eq]

/-- An invocation with blocks for two slots, text and another invocation between them. -/
def invokingTemplate : String :=
  "<Card><content name=\"a\">x</content>y<content name=\"b\">\x7bz\x7d</content>" ++
    "<if \x7bc\x7d><Tab> <content>w</content></Tab></if></Card>"

/-- The inner invocation is compiled with the block around it, and fills one slot. -/
theorem addDocument_calls_nested :
    let d := (parseTemplate Script.javaScript {} invokingTemplate).document
    let x : WalkContext := ⟨Script.javaScript, {}, d⟩
    d.slotNames 1 = ["a", "b"] ∧ d.looseChildren 1 = [4, 7] ∧ d.slotNames 8 = [defaultSlot] ∧
      ∀ c ∈ (({ options := {} } : Template).addDocument Script.javaScript d).1.components,
        c.root = 0 → Multiset.Rel x.Invokes {1, 8} c.base.calls := by
  have hread :
      let d := (parseTemplate Script.javaScript {} invokingTemplate).document
      let x : WalkContext := ⟨Script.javaScript, {}, d⟩
      (parseTemplate Script.javaScript {} invokingTemplate).error = none ∧
      d.slotNames 1 = ["a", "b"] ∧ d.looseChildren 1 = [4, 7] ∧ d.slotNames 8 = [defaultSlot] ∧
      x.document.invocations 0 = [1, 8] := by
    decide +kernel
  obtain ⟨herror, hfirst, hloose, hinner, hinvocations⟩ := hread
  refine ⟨hfirst, hloose, hinner, fun c hc hroot => ?_⟩
  obtain ⟨-, -, hcalled, -⟩ := addDocument_calls Script.javaScript {} {} invokingTemplate herror c hc
  rw [Component.Called, hroot, hinvocations] at hcalled
  exact hcalled

/-- Two blocks for one slot are two entries of the same name, and nothing is reported. -/
theorem not_distinct_slots :
    let d := (parseTemplate Script.javaScript {}
      "<Card><content name=\"a\">x</content><content name=\"a\">y</content></Card>").document
    let built := ({ options := {} } : Template).addDocument Script.javaScript d
    built.2 = [] ∧ built.1.components.map (fun c => c.base.calls.map fun call =>
      call.slots.map SlotBody.name) = [{["a", "a"]}] := by
  decide +kernel

end Stencil
