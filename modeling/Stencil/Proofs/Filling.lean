import Stencil.Component.Visit
import Stencil.Proofs.Numbering

/-!
# Filling frames

While the markup of a component is walked, frames are opened inside each other, and everything goes
into the innermost one.  A stretch of the walk is described by what it does to that frame and to the
count of references:

* `Walk.Grows`: the frames around it are left alone, and what was added is numbered;
* `Walk.Attaches`: what was added are spots of one node, and no reference was given out;
* `Walk.Aside`: other frames were filled, and the innermost one is as before.

Whether markup can be added without making a marker depends on what is open at the end of the frame.
`Walk.Breaks` says that nothing is open any more; `Walk.Reads` speaks of a stretch that adds literal
text, which may be joined to literal text before it.
-/

namespace Stencil

open Stencil.Markup Stencil.Render

namespace Component

/-- The frames that are being filled, the innermost first. -/
def stack (c : Component) : List Frame := c.nested ++ [c.base]

/-- The frame in work is on top of the others. -/
theorem stack_eq (c : Component) : c.stack = c.frame :: c.stack.tail := by
  unfold stack frame
  cases c.nested <;> rfl

/-- A change of the frame in work makes the new frame. -/
@[simp] theorem frame_mapFrame (c : Component) (f : Frame → Frame) :
    (c.mapFrame f).frame = f c.frame := by
  unfold mapFrame frame
  split <;> simp_all

/-- The frames below the one in work are left alone. -/
@[simp] theorem stack_tail_mapFrame (c : Component) (f : Frame → Frame) :
    (c.mapFrame f).stack.tail = c.stack.tail := by
  unfold mapFrame stack
  split <;> simp_all

/-- A change of the frame in work gives out no numbers. -/
@[simp] theorem references_mapFrame (c : Component) (f : Frame → Frame) :
    (c.mapFrame f).references = c.references := by
  unfold mapFrame
  split <;> rfl

/-- The style with the hash that confines it. -/
def sheet (c : Component) : Style.Sheet × Option String := (c.style, c.styleHash)

/-- A change of the frame in work does not touch the stylesheet. -/
@[simp] theorem sheet_mapFrame (c : Component) (f : Frame → Frame) :
    (c.mapFrame f).sheet = c.sheet := by
  unfold mapFrame
  split <;> rfl

/-- Ending a frame that was opened inside others leaves these. -/
theorem popFrame_of_stack {c before : Component} (h : c.stack.tail = before.stack) :
    c.popFrame.1 = c.frame ∧ c.popFrame.2.stack = before.stack := by
  unfold popFrame
  split
  · next hnested => simp [stack, hnested] at h
  · next inner outer hnested =>
      refine ⟨by simp [frame, hnested], ?_⟩
      rw [← h]
      simp [stack, hnested]

/-- Ending a frame gives out no numbers. -/
@[simp] theorem references_popFrame (c : Component) : c.popFrame.2.references = c.references := by
  unfold popFrame
  split <;> rfl

/-- Ending a frame does not touch the stylesheet. -/
@[simp] theorem sheet_popFrame (c : Component) : c.popFrame.2.sheet = c.sheet := by
  unfold popFrame
  split <;> rfl

end Component

namespace Walk

/-- The frame that is being filled. -/
def frame (w : Walk) : Frame := w.component.frame

/-- The number of references that were given out. -/
def count (w : Walk) : Nat := w.component.references

/-- What was added to the innermost frame, those around it being left alone. -/
structure Fills (w w' : Walk) (markers : List Nat) (spots : List Spot) : Prop where
  outer : w'.component.stack.tail = w.component.stack.tail
  sheet : w'.component.sheet = w.component.sheet
  markers : w'.frame.markers = w.frame.markers ++ markers
  spots : w'.frame.spots = w.frame.spots ++ spots

/-- Nothing fills a frame with nothing. -/
theorem Fills.refl (w : Walk) : w.Fills w [] [] := ⟨rfl, rfl, by simp, by simp⟩

/-- What fills a frame in two steps is put together. -/
theorem Fills.trans {w₁ w₂ w₃ : Walk} {m₁ m₂ : List Nat} {s₁ s₂ : List Spot}
    (h : w₁.Fills w₂ m₁ s₁) (h' : w₂.Fills w₃ m₂ s₂) : w₁.Fills w₃ (m₁ ++ m₂) (s₁ ++ s₂) :=
  ⟨h'.outer.trans h.outer, h'.sheet.trans h.sheet, by rw [h'.markers, h.markers, List.append_assoc],
    by rw [h'.spots, h.spots, List.append_assoc]⟩

/-- What was added is numbered; `loose` are frames that were filled besides. -/
def Grows (w w' : Walk) (loose : List Frame) : Prop :=
  ∃ markers spots, w.Fills w' markers spots ∧ Numbered w.count markers spots loose w'.count

/-- The loose frames of two steps are put together. -/
theorem Grows.trans {w₁ w₂ w₃ : Walk} {loose loose' : List Frame} (h : w₁.Grows w₂ loose)
    (h' : w₂.Grows w₃ loose') : w₁.Grows w₃ (loose ++ loose') := by
  obtain ⟨m₁, s₁, hfills, hnumbered⟩ := h
  obtain ⟨m₂, s₂, hfills', hnumbered'⟩ := h'
  exact ⟨m₁ ++ m₂, s₁ ++ s₂, hfills.trans hfills', hnumbered.append hnumbered'⟩

/-- Only spots of one node were added, and no reference was given out. -/
def Attaches (reference : Option Nat) (w w' : Walk) : Prop :=
  ∃ spots, w.Fills w' [] spots ∧ (∀ s ∈ spots, s.reference = reference) ∧ spotFrames spots = [] ∧
    w'.count = w.count

/-- Doing nothing attaches nothing. -/
theorem Attaches.refl (reference : Option Nat) (w : Walk) : Attaches reference w w :=
  ⟨[], .refl w, by simp, by simp [spotFrames], rfl⟩

/-- Two steps that only attach things to a node do so together. -/
theorem Attaches.trans {reference : Option Nat} {w₁ w₂ w₃ : Walk} (h : Attaches reference w₁ w₂)
    (h' : Attaches reference w₂ w₃) : Attaches reference w₁ w₃ := by
  obtain ⟨s₁, hfills, hall, hframes, hcount⟩ := h
  obtain ⟨s₂, hfills', hall', hframes', hcount'⟩ := h'
  refine ⟨s₁ ++ s₂, hfills.trans hfills', ?_, ?_, hcount'.trans hcount⟩
  · intro s hs
    rcases List.mem_append.mp hs with hs | hs
    · exact hall s hs
    · exact hall' s hs
  · rw [spotFrames_append, hframes, hframes']
    rfl

/-- Other frames were filled, and the innermost one is as before. -/
structure Aside (w w' : Walk) (loose : List Frame) : Prop where
  stack : w'.component.stack = w.component.stack
  sheet : w'.component.sheet = w.component.sheet
  numbered : Numbered w.count [] [] loose w'.count

/-- Doing nothing leaves the frame aside. -/
theorem Aside.refl (w : Walk) : w.Aside w [] := ⟨rfl, rfl, .refl _⟩

/-- Two steps that leave the frame aside do so together. -/
theorem Aside.trans {w₁ w₂ w₃ : Walk} {loose loose' : List Frame} (h : w₁.Aside w₂ loose)
    (h' : w₂.Aside w₃ loose') : w₁.Aside w₃ (loose ++ loose') :=
  ⟨h'.stack.trans h.stack, h'.sheet.trans h.sheet, h.numbered.append h'.numbered⟩

/-- A frame that is left aside stays as it is. -/
theorem Aside.frame {w w' : Walk} {loose : List Frame} (h : w.Aside w' loose) :
    w'.frame = w.frame := by
  have hstack := h.stack
  rw [w.component.stack_eq, w'.component.stack_eq] at hstack
  exact (List.cons.inj hstack).1

/-- A frame that is left aside is filled with nothing. -/
theorem Aside.fills {w w' : Walk} {loose : List Frame} (h : w.Aside w' loose) : w.Fills w' [] [] :=
  ⟨congrArg List.tail h.stack, h.sheet, by rw [h.frame, List.append_nil],
    by rw [h.frame, List.append_nil]⟩

/-- Loose frames are all that has grown beside a frame that is left aside. -/
theorem Aside.grows {w w' : Walk} {loose : List Frame} (h : w.Aside w' loose) : w.Grows w' loose :=
  ⟨[], [], h.fills, h.numbered⟩

/-- A frame that renders nothing may be forgotten. -/
theorem Aside.forget {w w' : Walk} {f : Frame} {loose : List Frame}
    (h : w.Aside w' (f.frames ++ loose)) (hf : f.isEmpty = true) : w.Aside w' loose :=
  ⟨h.stack, h.sheet, h.numbered.forget hf⟩

/-- **What was filled in a frame of its own**, once the frame is ended. -/
theorem aside_popFrame {w w' : Walk} {loose : List Frame}
    (h : (w.map (·.pushFrame)).Grows w' loose) :
    w.Aside { w' with component := w'.component.popFrame.2 }
      (w'.component.popFrame.1.frames ++ loose) := by
  obtain ⟨markers, spots, hfills, hnumbered⟩ := h
  have houter : w'.component.stack.tail = w.component.stack := hfills.outer
  obtain ⟨hframe, hstack⟩ := Component.popFrame_of_stack houter
  refine ⟨hstack, (Component.sheet_popFrame _).trans hfills.sheet, ?_⟩
  have hmarkers : w'.component.popFrame.1.markers = markers := by
    rw [hframe]
    exact hfills.markers
  have hspots : w'.component.popFrame.1.spots = spots := by
    rw [hframe]
    exact hfills.spots
  rw [← hmarkers, ← hspots] at hnumbered
  have hcount : Walk.count { w' with component := w'.component.popFrame.2 } = w'.count :=
    Component.references_popFrame _
  rw [hcount]
  exact hnumbered.close

/-- Nothing is open any more. -/
def Breaks (w w' : Walk) : Prop := w.Grows w' [] ∧ Open w'.frame.tail []

/-- Literal text was added, among other things; it may be joined to literal text before it. -/
structure Reads (w w' : Walk) (text : List Char) (loose : List Frame) : Prop where
  sheet : w'.component.sheet = w.component.sheet
  joins : ∀ tail, Open w.frame.tail tail → Plain (tail ++ text) →
    w.Grows w' loose ∧ ∃ tail', Open w'.frame.tail tail' ∧ tail' <:+ tail ++ text

/-- What has grown leaves the stylesheet alone. -/
theorem Grows.sheet {w w' : Walk} {loose : List Frame} (h : w.Grows w' loose) :
    w'.component.sheet = w.component.sheet := by
  obtain ⟨_, _, hfills, _⟩ := h
  exact hfills.sheet

/-- After a break it does not matter which text was added. -/
theorem Breaks.reads {w w' : Walk} (h : w.Breaks w') (text : List Char) : w.Reads w' text [] :=
  ⟨h.1.sheet, fun _ _ _ => ⟨h.1, [], h.2, List.nil_suffix⟩⟩

/-- Nothing is read in a frame that is left aside, loose frames apart. -/
theorem Aside.reads {w w' : Walk} {loose : List Frame} (h : w.Aside w' loose) :
    w.Reads w' [] loose := by
  refine ⟨h.sheet, fun tail hopen _ => ⟨h.grows, tail, ?_, by simp⟩⟩
  rw [h.frame]
  exact hopen

/-- Doing nothing reads nothing. -/
theorem Reads.refl (w : Walk) : w.Reads w [] [] := (Aside.refl w).reads

/-- **Stretches of text can be joined.** -/
theorem Reads.trans {w₁ w₂ w₃ : Walk} {text text' : List Char} {loose loose' : List Frame}
    (h : w₁.Reads w₂ text loose) (h' : w₂.Reads w₃ text' loose') :
    w₁.Reads w₃ (text ++ text') (loose ++ loose') where
  sheet := h'.sheet.trans h.sheet
  joins := by
    intro tail hopen hplain
    rw [← List.append_assoc] at hplain ⊢
    obtain ⟨hgrows, tail₂, hopen₂, hsuf⟩ :=
      h.joins tail hopen (hplain.mono (List.prefix_append _ _).isInfix)
    have hsuf' : tail₂ ++ text' <:+ tail ++ text ++ text' := by
      obtain ⟨before, hbefore⟩ := hsuf
      exact ⟨before, by rw [← List.append_assoc, hbefore]⟩
    obtain ⟨hgrows', tail₃, hopen₃, hsuf₃⟩ := h'.joins tail₂ hopen₂ (hplain.mono hsuf'.isInfix)
    exact ⟨hgrows.trans hgrows', tail₃, hopen₃, hsuf₃.trans hsuf'⟩

/-- Plain text between two breaks. -/
theorem Breaks.around {w₁ w₂ w₃ w₄ : Walk} {text : List Char} (h : w₁.Breaks w₂)
    (hreads : w₂.Reads w₃ text []) (hplain : Plain text) (h' : w₃.Breaks w₄) : w₁.Breaks w₄ :=
  ⟨(h.1.trans (hreads.joins [] h.2 hplain).1).trans h'.1, h'.2⟩

/-- What plain text makes of an empty frame. -/
theorem Reads.collected {w w' : Walk} {text : List Char} {loose : List Frame}
    (h : (w.map (·.pushFrame)).Reads w' text loose) (hplain : Plain text) :
    w.Aside { w' with component := w'.component.popFrame.2 }
      (w'.component.popFrame.1.frames ++ loose) := by
  have hempty : (w.map (·.pushFrame)).frame = .empty := rfl
  have hopen : Open (w.map (·.pushFrame)).frame.tail [] := by
    rw [hempty, Frame.tail_empty]
    exact open_nil (by simp)
  exact aside_popFrame (h.joins [] hopen hplain).1

/-- What some steps put into a frame of their own. -/
theorem Reads.collect {w : Walk} {steps : Walk → Walk} {text : List Char}
    (h : (w.map (·.pushFrame)).Reads (steps (w.map (·.pushFrame))) text []) (hplain : Plain text) :
    w.Aside (w.collect steps).2 (w.collect steps).1.frames := by
  have haside := h.collected hplain
  rw [List.append_nil] at haside
  exact haside

section Operations

variable (w : Walk)

/-- Markup is pushed into the frame in work. -/
@[simp] theorem frame_html (text : String) : (w.html text).frame = w.frame.pushHtml text :=
  Component.frame_mapFrame _ _

/-- A constant is pushed into the frame in work. -/
@[simp] theorem frame_constant (code : String) (raw : Bool) :
    (w.constant code raw).frame = w.frame.pushConstant code raw :=
  Component.frame_mapFrame _ _

/-- A spot is pushed into the frame in work. -/
@[simp] theorem frame_spot (reference : Option Nat) (kind : SpotKind) :
    (w.spot reference kind).frame = w.frame.pushSpot reference kind :=
  Component.frame_mapFrame _ _

/-- Markup needs no number. -/
@[simp] theorem count_html (text : String) : (w.html text).count = w.count :=
  Component.references_mapFrame _ _

/-- A constant needs no number. -/
@[simp] theorem count_constant (code : String) (raw : Bool) :
    (w.constant code raw).count = w.count :=
  Component.references_mapFrame _ _

/-- A spot needs no number of its own. -/
@[simp] theorem count_spot (reference : Option Nat) (kind : SpotKind) :
    (w.spot reference kind).count = w.count :=
  Component.references_mapFrame _ _

/-- Markup fills the frame with its markers, unless one straddles the end of what is there. -/
theorem fills_html {text : String} (h : ¬ Straddles w.frame.tail text.toList) :
    w.Fills (w.html text) (markersIn text.toList) [] :=
  ⟨Component.stack_tail_mapFrame _ _, Component.sheet_mapFrame _ _,
    by rw [frame_html, Frame.markers_pushHtml _ _ h], by simp⟩

/-- A constant fills the frame with no markers. -/
theorem fills_constant (code : String) (raw : Bool) : w.Fills (w.constant code raw) [] [] :=
  ⟨Component.stack_tail_mapFrame _ _, Component.sheet_mapFrame _ _,
    by rw [frame_constant, (Frame.markers_pushConstant _ _ _).1, List.append_nil], by simp⟩

/-- A spot is all that is filled in. -/
theorem fills_spot (reference : Option Nat) (kind : SpotKind) :
    w.Fills (w.spot reference kind) [] [.mk reference w.frame.blocks.length kind] :=
  ⟨Component.stack_tail_mapFrame _ _, Component.sheet_mapFrame _ _, by simp, by simp⟩

/-- A warning changes nothing. -/
theorem aside_warn (p : Component.Problem) (span : Option Source.Span) : w.Aside (w.warn p span) [] :=
  ⟨rfl, rfl, .refl _⟩

/-- A problem attaches nothing. -/
theorem attaches_warn (reference : Option Nat) (p : Component.Problem) (span : Option Source.Span) :
    Attaches reference w (w.warn p span) :=
  ⟨[], (w.aside_warn p span).fills, by simp, by simp [spotFrames], rfl⟩

/-- A spot without frames is attached. -/
theorem attaches_spot (reference : Option Nat) {kind : SpotKind} (h : kind.frames = []) :
    Attaches reference w (w.spot reference kind) :=
  ⟨_, w.fills_spot reference kind, by simp [Spot.reference], by simp [spotFrames, h], by simp⟩

/-- Markup without markers attaches nothing. -/
theorem attaches_html (reference : Option Nat) {text : String}
    (h : ¬ Straddles w.frame.tail text.toList) (hm : markersIn text.toList = []) :
    Attaches reference w (w.html text) :=
  ⟨[], hm ▸ w.fills_html h, by simp, by simp [spotFrames], by simp⟩

/-- A constant attaches nothing. -/
theorem attaches_constant (reference : Option Nat) (code : String) (raw : Bool) :
    Attaches reference w (w.constant code raw) :=
  ⟨[], w.fills_constant code raw, by simp, by simp [spotFrames], by simp⟩

/-- Spots about no node need no reference. -/
theorem Attaches.grows {w w' : Walk} (h : Attaches none w w') : w.Grows w' [] := by
  obtain ⟨spots, hfills, hall, hframes, hcount⟩ := h
  refine ⟨[], spots, hfills, ?_⟩
  rw [hcount]
  exact .unreferenced hall hframes

/-- A spot about no node. -/
theorem reads_spot {kind : SpotKind} (h : kind.frames = []) : w.Reads (w.spot none kind) [] [] := by
  have hgrows := (w.attaches_spot none h).grows
  refine ⟨hgrows.sheet, fun tail hopen _ => ⟨hgrows, tail, ?_, by simp⟩⟩
  rw [frame_spot, Frame.tail_pushSpot]
  exact hopen

/-- Markup is read as it is written. -/
theorem reads_html (text : String) : w.Reads (w.html text) text.toList [] := by
  refine ⟨Component.sheet_mapFrame _ _, fun tail hopen hplain => ?_⟩
  have hcut := not_straddles_of_plain hopen hplain
  have hnone := markersIn_of_plain (hplain.mono (List.suffix_append _ _).isInfix)
  refine ⟨(w.attaches_html none hcut hnone).grows, tail ++ text.toList, ?_, List.suffix_rfl⟩
  rw [frame_html, Frame.tail_pushHtml _ _ hcut]
  exact hopen.append _

/-- An expression is joined to nothing. -/
theorem breaks_constant (code : String) (raw : Bool) : w.Breaks (w.constant code raw) := by
  refine ⟨(w.attaches_constant none code raw).grows, ?_⟩
  rw [frame_constant, (Frame.markers_pushConstant _ _ _).2]
  exact open_nil (by simp)

/-- Markup that starts and ends like a tag is joined to nothing. -/
theorem open_html (text : String) (hhead : text.toList.head? = some '<')
    (hlast : text.toList.getLast? = some '>') :
    ¬ Straddles w.frame.tail text.toList ∧ Open (w.html text).frame.tail [] := by
  have hcut : ¬ Straddles w.frame.tail text.toList :=
    not_straddles_of_head (by simp [hhead])
  refine ⟨hcut, ?_⟩
  rw [frame_html, Frame.tail_pushHtml _ _ hcut]
  apply open_nil
  rw [List.getLast?_append, hlast]
  simp

/-- Markup from an opening angle to a closing one breaks up what could be a marker. -/
theorem breaks_html {text : String} (hhead : text.toList.head? = some '<')
    (hlast : text.toList.getLast? = some '>') (hm : markersIn text.toList = []) :
    w.Breaks (w.html text) := by
  obtain ⟨hcut, hopen⟩ := w.open_html text hhead hlast
  exact ⟨(w.attaches_html none hcut hm).grows, hopen⟩

/-- The mark of a reference that was just given out. -/
theorem fills_anchor : w.Fills w.anchor.2 [w.count] [] ∧ w.anchor.1 = w.count ∧
    w.anchor.2.count = w.count + 1 ∧ Open w.anchor.2.frame.tail [] := by
  obtain ⟨hcut, hopen⟩ := w.allocate.2.open_html ("<!--ref:" ++ toString w.count ++ "-->")
    (by simp) (by rw [String.toList_append, List.getLast?_append]; rfl)
  have hfills := w.allocate.2.fills_html hcut
  rw [markersIn_anchor] at hfills
  exact ⟨⟨hfills.outer, hfills.sheet, hfills.markers, hfills.spots⟩, rfl,
    by rw [anchor, count_html]; rfl, hopen⟩

/-- **A reference with its spots.**  A place is marked; spots about it are added and the frames of
the last one are filled. -/
theorem breaks_anchor {w₁ w₂ : Walk} {kind : SpotKind}
    (hattaches : Attaches (some w.anchor.1) w.anchor.2 w₁)
    (htail : w₁.frame.tail = w.anchor.2.frame.tail) (haside : w₁.Aside w₂ kind.frames) :
    w.Breaks (w₂.spot (some w.anchor.1) kind) := by
  obtain ⟨hanchor, href, hcount, hopen⟩ := w.fills_anchor
  obtain ⟨spots, hfills, hall, hframes, hcount₁⟩ := hattaches
  have hspot := w₂.fills_spot (some w.anchor.1) kind
  refine ⟨⟨_, _, ((hanchor.trans hfills).trans haside.fills).trans hspot, ?_⟩, ?_⟩
  · simp only [List.append_nil, List.nil_append, count_spot]
    apply Numbered.anchor
    · have hloose : spotFrames (spots ++ [.mk (some w.anchor.1) w₂.frame.blocks.length kind]) =
          kind.frames := by
        simp [spotFrames_append, hframes, spotFrames]
      rw [hloose, ← hcount, ← hcount₁]
      exact haside.numbered
    · intro s hs
      rw [← href]
      rcases List.mem_append.mp hs with hs | hs
      · exact hall s hs
      · rw [List.mem_singleton.mp hs]
        rfl
  · rw [frame_spot, Frame.tail_pushSpot, haside.frame, htail]
    exact hopen

end Operations

end Walk

end Stencil
