import Stencil.Proofs.Marker
import Stencil.Render.Frame

/-!
# What a frame holds

A frame is read off by its markup, its open end and its spots.  `Frame.markup_pushPiece` says that
the blocks are a mere division of the markup: a piece that is added to a frame is added to its
markup, wherever the last spot stands.  From it follows what adding markup, an expression or a spot
does to the markers of a frame and to its open end.

`Frame.frames` lists a frame and all frames inside it.
-/

namespace Stencil.Render

open Stencil.Text

namespace Block

/-- Only the last piece matters for what is added. -/
theorem pushPiece_concat (init : List Piece) (q p : Piece) :
    pushPiece (init ++ [q]) p = init ++ pushPiece [q] p := by
  induction init with
  | nil => rfl
  | cons r rest ih =>
      have hne : ∃ x xs, rest ++ [q] = x :: xs := by
        cases rest with
        | nil => exact ⟨q, [], rfl⟩
        | cons x xs => exact ⟨x, xs ++ [q], rfl⟩
      obtain ⟨x, xs, hx⟩ := hne
      rw [hx] at ih
      simp only [List.cons_append, hx, pushPiece]
      rw [ih]

/-- Markup that is added in two steps is as markup that is added in one. -/
theorem pushPiece_html_html (ps : List Piece) (a b : String) :
    pushPiece (pushPiece ps (.html a)) (.html b) = pushPiece ps (.html (a ++ b)) := by
  rcases List.eq_nil_or_concat ps with rfl | ⟨init, q, rfl⟩
  · rfl
  · rw [List.concat_eq_append, pushPiece_concat, pushPiece_concat]
    cases q with
    | html c =>
        rw [show pushPiece [.html c] (.html a) = [.html (c ++ a)] from rfl, pushPiece_concat]
        simp [pushPiece, String.append_assoc]
    | constant code raw =>
        rw [show pushPiece [.constant code raw] (.html a) = [.constant code raw] ++ [.html a] from rfl,
          ← List.append_assoc, pushPiece_concat]
        simp [pushPiece]

/-- Adding pieces the last of which was just added to is adding to what they make. -/
theorem foldl_push_pushPiece (b : Block) (ps : List Piece) (p : Piece) :
    (pushPiece ps p).foldl push b = (ps.foldl push b).push p := by
  rcases List.eq_nil_or_concat ps with rfl | ⟨init, q, rfl⟩
  · rfl
  · rw [List.concat_eq_append, pushPiece_concat]
    cases q with
    | html a =>
        cases p with
        | html c => simp [pushPiece, push, pushPiece_html_html]
        | constant code raw => simp [pushPiece]
    | constant code raw => simp [pushPiece]

end Block

namespace Frame

/-- A piece that is pushed goes behind the others of the last block. -/
private theorem pieces_pushLast (blocks : List Block) (p : Piece) :
    ∃ before ps, blocks.flatMap Block.pieces = before ++ ps ∧
      (pushLast blocks p).flatMap Block.pieces = before ++ Block.pushPiece ps p := by
  induction blocks with
  | nil => exact ⟨[], [], rfl, rfl⟩
  | cons b rest ih =>
      cases rest with
      | nil => exact ⟨[], b.pieces, by simp, by simp [pushLast, Block.push]⟩
      | cons c more =>
          obtain ⟨before, ps, h₁, h₂⟩ := ih
          refine ⟨b.pieces ++ before, ps, by rw [List.flatMap_cons, h₁, List.append_assoc], ?_⟩
          show (b :: pushLast (c :: more) p).flatMap Block.pieces = _
          rw [List.flatMap_cons, h₂, List.append_assoc]

/-- **Blocks divide the markup.**  A piece that is added to a frame is added to its markup. -/
theorem markup_pushPiece (f : Frame) (p : Piece) : (f.pushPiece p).markup = f.markup.push p := by
  unfold pushPiece
  split
  · simp only [markup, blocks, List.flatMap_append, List.foldl_append]
    simp [Block.push, Block.pushPiece]
  · obtain ⟨before, ps, h₁, h₂⟩ := pieces_pushLast f.blocks p
    show (((pushLast f.blocks p).flatMap Block.pieces).foldl Block.push {}) = _
    rw [h₂, List.foldl_append, Block.foldl_push_pushPiece, markup, h₁, List.foldl_append]

/-- Pushing a piece leaves the spots. -/
@[simp] theorem spots_pushPiece (f : Frame) (p : Piece) : (f.pushPiece p).spots = f.spots := by
  unfold pushPiece
  split <;> rfl

/-- Pushing a spot puts it behind the others, at the number of blocks. -/
@[simp] theorem spots_pushSpot (f : Frame) (reference : Option Nat) (kind : SpotKind) :
    (f.pushSpot reference kind).spots =
      f.spots ++ [.mk reference f.blocks.length kind] := rfl

/-- The numbers of the markers in a piece of markup. -/
def pieceMarkers : Piece → List Nat
  | .html text => markersIn text.toList
  | .constant _ _ => []

/-- The numbers of the markers in the markup of a frame, in order. -/
def markers (f : Frame) : List Nat := f.markup.pieces.flatMap pieceMarkers

/-- The markup at the end of some pieces. -/
def tailOf (ps : List Piece) : List Char :=
  match ps.getLast? with
  | some (.html text) => text.toList
  | _ => []

/-- The markup at the end of a frame, back to the last expression. -/
def tail (f : Frame) : List Char := tailOf f.markup.pieces

/-- An empty frame ends in nothing. -/
@[simp] theorem tail_empty : empty.tail = [] := rfl

/-- Markup that is pushed brings its markers, unless one straddles the edge. -/
private theorem markers_pushPiece_html (ps : List Piece) (html : String)
    (h : ¬ Straddles (tailOf ps) html.toList) :
    (Block.pushPiece ps (.html html)).flatMap pieceMarkers =
        ps.flatMap pieceMarkers ++ markersIn html.toList ∧
      tailOf (Block.pushPiece ps (.html html)) = tailOf ps ++ html.toList := by
  rcases List.eq_nil_or_concat ps with rfl | ⟨init, q, rfl⟩
  · simp [Block.pushPiece, pieceMarkers, tailOf]
  · rw [List.concat_eq_append] at h ⊢
    rw [Block.pushPiece_concat]
    cases q with
    | html a =>
        have hcut : ¬ Straddles a.toList html.toList := by simpa [tailOf] using h
        simp [Block.pushPiece, pieceMarkers, tailOf, markersIn_append hcut]
    | constant code raw => simp [Block.pushPiece, pieceMarkers, tailOf]

/-- Markup adds its markers to those of a frame, if none arises where it is joined. -/
theorem markers_pushHtml (f : Frame) (html : String) (h : ¬ Straddles f.tail html.toList) :
    (f.pushHtml html).markers = f.markers ++ markersIn html.toList := by
  unfold pushHtml
  split
  · next he => simp [String.isEmpty_iff.mp he, markersIn]
  · rw [markers, markup_pushPiece]
    exact (markers_pushPiece_html _ _ h).1

/-- Markup that is pushed goes behind the text at the end. -/
theorem tail_pushHtml (f : Frame) (html : String) (h : ¬ Straddles f.tail html.toList) :
    (f.pushHtml html).tail = f.tail ++ html.toList := by
  unfold pushHtml
  split
  · next he => simp [String.isEmpty_iff.mp he]
  · rw [tail, markup_pushPiece]
    exact (markers_pushPiece_html _ _ h).2

/-- Pushing markup leaves the spots. -/
@[simp] theorem spots_pushHtml (f : Frame) (html : String) : (f.pushHtml html).spots = f.spots := by
  unfold pushHtml
  split
  · rfl
  · exact spots_pushPiece _ _

/-- A constant is pushed as a piece of its own. -/
private theorem pushPiece_constant (ps : List Piece) (code : String) (raw : Bool) :
    Block.pushPiece ps (.constant code raw) = ps ++ [.constant code raw] := by
  rcases List.eq_nil_or_concat ps with rfl | ⟨init, q, rfl⟩
  · rfl
  · rw [List.concat_eq_append, Block.pushPiece_concat]
    cases q <;> simp [Block.pushPiece]

/-- An expression is no marker, and nothing before it can be the start of one. -/
theorem markers_pushConstant (f : Frame) (code : String) (raw : Bool) :
    (f.pushConstant code raw).markers = f.markers ∧ (f.pushConstant code raw).tail = [] := by
  unfold pushConstant markers tail
  rw [markup_pushPiece]
  simp [Block.push, pushPiece_constant, pieceMarkers, tailOf]

/-- Pushing a constant leaves the spots. -/
@[simp] theorem spots_pushConstant (f : Frame) (code : String) (raw : Bool) :
    (f.pushConstant code raw).spots = f.spots := spots_pushPiece _ _

/-- Pushing a spot leaves the markers. -/
@[simp] theorem markers_pushSpot (f : Frame) (reference : Option Nat) (kind : SpotKind) :
    (f.pushSpot reference kind).markers = f.markers := rfl

/-- Pushing a spot leaves the text at the end. -/
@[simp] theorem tail_pushSpot (f : Frame) (reference : Option Nat) (kind : SpotKind) :
    (f.pushSpot reference kind).tail = f.tail := rfl

/-- Blank pieces make blank markup. -/
private theorem blank_foldl_push (ps : List Piece) (b : Block) (hb : b.isBlank = true)
    (h : (⟨ps⟩ : Block).isBlank = true) : (ps.foldl Block.push b).isBlank = true := by
  induction ps generalizing b with
  | nil => exact hb
  | cons p rest ih =>
      simp only [Block.isBlank, List.all_cons, Bool.and_eq_true] at h
      refine ih _ ?_ h.2
      rcases List.eq_nil_or_concat b.pieces with he | ⟨init, q, he⟩
      · simp [Block.push, he, Block.pushPiece, Block.isBlank, h.1]
      · rw [List.concat_eq_append] at he
        simp only [Block.isBlank, he, List.all_append, Bool.and_eq_true] at hb
        simp only [Block.push, he, Block.pushPiece_concat, Block.isBlank, List.all_append,
          Bool.and_eq_true]
        refine ⟨hb.1, ?_⟩
        cases q with
        | constant code raw => simp at hb
        | html a =>
            cases p with
            | constant code raw => simp at h
            | html c =>
                simp only [List.all_cons, List.all_nil, Bool.and_true, isSpaces] at hb h ⊢
                simp [Block.pushPiece, hb.2, h.1]

/-- A frame that renders nothing has no markers. -/
theorem markers_of_isEmpty {f : Frame} (h : f.isEmpty = true) : f.markers = [] := by
  have hblank : f.markup.isBlank = true := by
    simp only [isEmpty, Bool.and_eq_true, List.all_eq_true] at h
    apply blank_foldl_push _ _ rfl
    simp only [Block.isBlank, List.all_flatMap, List.all_eq_true]
    intro b hb
    exact List.all_eq_true.mp (h.2 b hb)
  rw [markers, List.flatMap_eq_nil_iff]
  intro p hp
  have hsp := List.all_eq_true.mp hblank p hp
  cases p with
  | constant code raw => rfl
  | html text =>
      have hall : ∀ c ∈ text.toList, isSpace c = true := by simpa [isSpaces] using hsp
      apply markersIn_of_no_start
      · intro hd
        exact absurd (hall _ hd) (by decide)
      · intro hl
        exact absurd (hall _ hl) (by decide)

/-- A frame that renders nothing has no spots. -/
theorem spots_of_isEmpty {f : Frame} (h : f.isEmpty = true) : f.spots = [] := by
  simp only [isEmpty, Bool.and_eq_true] at h
  exact List.isEmpty_iff.mp h.1

end Frame

mutual

/-- A frame and all frames inside it. -/
def Frame.frames : Frame → List Frame
  | .mk blocks spots isSealed => .mk blocks spots isSealed :: spotFrames spots

/-- The frames inside some spots. -/
def spotFrames : List Spot → List Frame
  | [] => []
  | .mk _ _ kind :: rest => kind.frames ++ spotFrames rest

/-- The frames inside a spot of some kind. -/
def SpotKind.frames : SpotKind → List Frame
  | .conditional branches => branchFrames branches
  | .each _ body => body.frames
  | .slot _ (some fallback) => fallback.frames
  | .invoke _ _ slots => slotFrames slots
  | _ => []

/-- The frames inside some branches. -/
def branchFrames : List Branch → List Frame
  | [] => []
  | .mk _ body :: rest => body.frames ++ branchFrames rest

/-- The frames inside the content of some slots. -/
def slotFrames : List SlotBody → List Frame
  | [] => []
  | .mk _ body :: rest => body.frames ++ slotFrames rest

end

/-- The frames in spots joined are joined. -/
theorem spotFrames_append (a b : List Spot) : spotFrames (a ++ b) = spotFrames a ++ spotFrames b := by
  induction a with
  | nil => simp [spotFrames]
  | cons s rest ih =>
      cases s with
      | mk reference position kind => simp [spotFrames, ih]

/-- The frames of a frame are it and those in its spots. -/
theorem Frame.frames_eq (f : Frame) : f.frames = f :: spotFrames f.spots := by
  cases f
  simp [Frame.frames, Frame.spots]

end Stencil.Render
