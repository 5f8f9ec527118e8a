import Mathlib.Algebra.Order.Group.Multiset
import Stencil.Proofs.Account

/-!
# What is picked from the spots of a component

Conditionals and calls of components are spots of one kind.  `Frame.picked` are the spots of a kind
in a frame and in the frames inside it.  `Walk.Picks` says of a stretch of the walk that the spots it
adds correspond one to one to what counts in it; it has the laws of an account
(`Walk.Account`) as far as these are about spots.
-/

namespace Stencil

open Stencil.Markup Stencil.Render

namespace Render

variable {β : Type}

/-- What is picked from some spots. -/
def pickedAt (pick : SpotKind → Option β) (spots : List Spot) : Multiset β :=
  ↑(spots.filterMap fun s => pick s.kind)

/-- What is picked from the spots of some frames. -/
def pickedIn (pick : SpotKind → Option β) (fs : List Frame) : Multiset β :=
  pickedAt pick (fs.flatMap Frame.spots)

/-- What is picked from the spots of a frame and of the frames inside it. -/
def Frame.picked (pick : SpotKind → Option β) (f : Frame) : Multiset β := pickedIn pick f.frames

variable {pick : SpotKind → Option β}

@[simp] theorem pickedIn_nil : pickedIn pick [] = 0 := rfl

theorem pickedIn_append (fs gs : List Frame) :
    pickedIn pick (fs ++ gs) = pickedIn pick fs + pickedIn pick gs := by
  simp [pickedIn, pickedAt]

theorem pickedAt_concat (spots : List Spot) (s : Spot) :
    pickedAt pick (spots ++ [s]) = pickedAt pick spots + ↑(pick s.kind).toList := by
  have hlast : [s].filterMap (fun s => pick s.kind) = (pick s.kind).toList := by
    cases h : pick s.kind <;> simp [h]
  rw [pickedAt, List.filterMap_append, hlast]
  rfl

namespace Frame

variable {f g : Frame}

theorem picked_eq (f : Frame) :
    f.picked pick = pickedAt pick f.spots + pickedIn pick (spotFrames f.spots) := by
  rw [picked, frames_eq, ← List.singleton_append, pickedIn_append]
  simp [pickedIn]

theorem picked_congr (h : f.spots = g.spots) : f.picked pick = g.picked pick := by
  rw [picked_eq, picked_eq, h]

theorem picked_pushSpot (f : Frame) (reference : Option Nat) (kind : SpotKind) :
    (f.pushSpot reference kind).picked pick =
      f.picked pick + (↑(pick kind).toList + pickedIn pick kind.frames) := by
  rw [picked_eq, picked_eq f, spots_pushSpot, pickedAt_concat, spotFrames_append, pickedIn_append,
    ← add_add_add_comm]
  simp [spotFrames, Spot.kind]

/-- Nothing is picked from a frame that renders nothing. -/
theorem picked_of_isEmpty (h : f.isEmpty = true) : f.picked pick = 0 := by
  rw [picked_eq, spots_of_isEmpty h]
  rfl

end Frame

end Render

namespace Walk

variable {α β : Type}

/-- What counts in a stretch of the walk corresponds to what is picked from the spots that were added
to the frame that is being filled, and from the frames that were filled besides. -/
structure Picks (pick : SpotKind → Option β) (rel : α → β → Prop) (w w' : Walk) (loose : List Frame)
    (counted : Multiset α) : Prop where
  outer : w'.component.stack.tail = w.component.stack.tail
  picked : ∃ added, w'.frame.picked pick = w.frame.picked pick + added ∧
    Multiset.Rel rel counted (added + pickedIn pick loose)

namespace Picks

variable {pick : SpotKind → Option β} {rel : α → β → Prop} {w w' w₁ w₂ w₃ : Walk}
  {loose loose' : List Frame} {counted counted' : Multiset α}

/-- Nothing is picked at the leaves. -/
theorem quiet (hpick : ∀ kind, kind.isPlain = true → pick kind = none) (h : w.Quiet w') :
    w.Picks pick rel w' [] 0 := by
  have hkept : w'.component.stack.tail = w.component.stack.tail ∧
      w'.frame.picked pick = w.frame.picked pick := by
    induction h with
    | refl w => exact ⟨rfl, rfl⟩
    | trans _ _ ih ih' => exact ⟨ih'.1.trans ih.1, ih'.2.trans ih.2⟩
    | html w text =>
        refine ⟨Component.stack_tail_mapFrame _ _, ?_⟩
        rw [frame_html]
        exact Frame.picked_congr (Frame.spots_pushHtml _ _)
    | constant w code raw =>
        refine ⟨Component.stack_tail_mapFrame _ _, ?_⟩
        rw [frame_constant]
        exact Frame.picked_congr (Frame.spots_pushConstant _ _ _)
    | spot w reference hplain =>
        refine ⟨Component.stack_tail_mapFrame _ _, ?_⟩
        rw [frame_spot, Frame.picked_pushSpot, hpick _ hplain, SpotKind.frames_of_isPlain hplain]
        simp
    | warn w hp span => exact ⟨rfl, rfl⟩
    | beside w imports hstack =>
        refine ⟨congrArg List.tail hstack, ?_⟩
        rw [frame_beside imports hstack]
  obtain ⟨houter, hpicked⟩ := hkept
  exact ⟨houter, 0, by rw [hpicked, add_zero], by simp⟩

/-- **Stretches of the walk add up.** -/
theorem trans (h : w₁.Picks pick rel w₂ loose counted) (h' : w₂.Picks pick rel w₃ loose' counted') :
    w₁.Picks pick rel w₃ (loose ++ loose') (counted + counted') := by
  obtain ⟨houter, added, hadded, hrel⟩ := h
  obtain ⟨houter', added', hadded', hrel'⟩ := h'
  refine ⟨houter'.trans houter, added + added', ?_, ?_⟩
  · rw [hadded', hadded, add_assoc]
  · rw [pickedIn_append, add_add_add_comm]
    exact hrel.add hrel'

/-- What was filled in a frame of its own, once the frame is ended. -/
theorem popFrame (h : (w.map (·.pushFrame)).Picks pick rel w' loose counted) :
    w.Picks pick rel { w' with component := w'.component.popFrame.2 }
      (w'.component.popFrame.1.frames ++ loose) counted := by
  obtain ⟨houter, added, hadded, hrel⟩ := h
  have hstack : w'.component.stack.tail = w.component.stack := houter
  obtain ⟨hframe, hpopped⟩ := Component.popFrame_of_stack hstack
  refine ⟨congrArg List.tail hpopped, 0, ?_, ?_⟩
  · rw [add_zero]
    exact congrArg (Frame.picked pick) (frame_beside w'.imports hpopped)
  · have hempty : (w.map (·.pushFrame)).frame.picked pick = 0 := rfl
    rw [hempty, zero_add] at hadded
    have hinner : pickedIn pick w'.component.popFrame.1.frames = added := by
      rw [hframe]
      exact hadded
    rwa [zero_add, pickedIn_append, hinner]

/-- A frame that renders nothing may be forgotten. -/
theorem forget {inner : Frame} (h : w.Picks pick rel w' (inner.frames ++ loose) counted)
    (hinner : inner.isEmpty = true) : w.Picks pick rel w' loose counted := by
  obtain ⟨houter, added, hadded, hrel⟩ := h
  have hnone : pickedIn pick inner.frames = 0 := Frame.picked_of_isEmpty hinner
  refine ⟨houter, added, hadded, ?_⟩
  rwa [pickedIn_append, hnone, zero_add] at hrel

/-- The frames of a spot of another kind. -/
theorem spot {kind : SpotKind} (h : w.Picks pick rel w' kind.frames counted)
    (hown : pick kind = none) (reference : Option Nat) :
    w.Picks pick rel (w'.spot reference kind) [] counted := by
  obtain ⟨houter, added, hadded, hrel⟩ := h
  refine ⟨(Component.stack_tail_mapFrame _ _).trans houter, added + pickedIn pick kind.frames, ?_, ?_⟩
  · rw [frame_spot, Frame.picked_pushSpot, hadded, hown, add_assoc]
    simp
  · simpa using hrel

/-- A spot that is picked, with the frames of the spot. -/
theorem made {a : α} {b : β} (kind : SpotKind) (h : w.Picks pick rel w' kind.frames counted)
    (hown : pick kind = some b) (hmade : rel a b) (reference : Option Nat) :
    w.Picks pick rel (w'.spot reference kind) [] ({a} + counted) := by
  obtain ⟨houter, added, hadded, hrel⟩ := h
  refine ⟨(Component.stack_tail_mapFrame _ _).trans houter,
    added + ({b} + pickedIn pick kind.frames), ?_, ?_⟩
  · rw [frame_spot, Frame.picked_pushSpot, hadded, hown, add_assoc]
    rfl
  · have hone : Multiset.Rel rel {a} {b} := by
      rw [← Multiset.cons_zero, ← Multiset.cons_zero]
      exact .cons hmade .zero
    have hall := hone.add hrel
    rw [← add_assoc, add_comm _ added, add_assoc] at hall
    simpa using hall

end Picks

end Walk

end Stencil
