import Stencil.Proofs.Environment
import Stencil.Proofs.Folded

/-!
# A frame is a log

What is added to a frame is kept in the order in which it came, although blocks and spots are kept
apart: a spot remembers how many blocks stand before it.  `Lays` says what a frame holds as one list of
sections, each of them a block or a spot, and every addition keeps it.  The code for the server goes
through these sections one by one, so that it is the log of all additions (`statements_log`); the
markup for the browser is the log without the spots.
-/

namespace Stencil.Render

open Stencil.Text

/-- Something that is added to a frame. -/
inductive Push where
  | html (text : String)
  | constant (code : String) (raw : Bool)
  | spot (reference : Option Nat) (kind : SpotKind)

/-- Something that a frame holds: a piece of markup or a spot. -/
inductive Entry where
  | piece (p : Piece)
  | spot (reference : Option Nat) (kind : SpotKind)

/-- The frame with something added. -/
def Frame.push (f : Frame) : Push → Frame
  | .html text => f.pushHtml text
  | .constant code raw => f.pushConstant code raw
  | .spot reference kind => f.pushSpot reference kind

/-- The frame that some additions make. -/
def Frame.ofPushes (pushes : List Push) : Frame := pushes.foldl Frame.push .empty

namespace Push

/-- What an addition leaves in the log: nothing if it is empty markup. -/
def entry? : Push → Option Entry
  | .html text => if text.isEmpty then none else some (.piece (.html text))
  | .constant code raw => some (.piece (.constant code raw))
  | .spot reference kind => some (.spot reference kind)

/-- The spot that is added. -/
def spot? : Push → Option (Option Nat × SpotKind)
  | .html _ => none
  | .constant _ _ => none
  | .spot reference kind => some (reference, kind)

end Push

namespace Entry

/-- The piece of markup. -/
def piece? : Entry → Option Piece
  | .piece p => some p
  | .spot _ _ => none

/-- The spot. -/
def spot? : Entry → Option (Option Nat × SpotKind)
  | .piece _ => none
  | .spot reference kind => some (reference, kind)

end Entry

/-- An entry in front of others; markup in front of markup is joined to it. -/
def joinFirst : Entry → List Entry → List Entry
  | .piece (.html a), .piece (.html b) :: rest => .piece (.html (a ++ b)) :: rest
  | e, rest => e :: rest

/-- The entries with consecutive markup joined. -/
def joinHtml (entries : List Entry) : List Entry := entries.foldr joinFirst []

/-- The log of some additions: all of them in order, without empty markup and with consecutive markup
joined. -/
def log (pushes : List Push) : List Entry := joinHtml (pushes.filterMap Push.entry?)

/-! ### Joining at the end -/

/-- Entries with one more at their end; markup that follows markup is joined to it. -/
def joinLast : List Entry → Entry → List Entry
  | [], e => [e]
  | [.piece (.html a)], .piece (.html b) => [.piece (.html (a ++ b))]
  | x :: rest, e => x :: joinLast rest e

theorem joinLast_cons_cons (x y : Entry) (rest : List Entry) (e : Entry) :
    joinLast (x :: y :: rest) e = x :: joinLast (y :: rest) e := by
  simp [joinLast]

/-- Only the last entries matter for what is added. -/
theorem joinLast_append (front : List Entry) {back : List Entry} (hback : back ≠ []) (e : Entry) :
    joinLast (front ++ back) e = front ++ joinLast back e := by
  induction front with
  | nil => rfl
  | cons y rest ih =>
      obtain ⟨z, more, hz⟩ := List.exists_cons_of_ne_nil (List.append_ne_nil_of_right_ne_nil rest hback)
      rw [List.cons_append, hz, joinLast_cons_cons, ← hz, ih, List.cons_append]

/-- Nothing is joined to a spot, nor a spot to anything. -/
theorem joinLast_spot (es : List Entry) (reference : Option Nat) (kind : SpotKind) :
    joinLast es (.spot reference kind) = es ++ [.spot reference kind] := by
  rcases List.eq_nil_or_concat es with rfl | ⟨front, x, rfl⟩
  · rfl
  · rw [List.concat_eq_append, joinLast_append front (List.cons_ne_nil x []), List.append_assoc]
    rcases x with (_ | _) | _ <;> rfl

/-- The pieces of a block are joined as the entries of a log are. -/
theorem map_pushPiece (ps : List Piece) (p : Piece) :
    (Block.pushPiece ps p).map Entry.piece = joinLast (ps.map Entry.piece) (.piece p) := by
  rcases List.eq_nil_or_concat ps with rfl | ⟨front, q, rfl⟩
  · rfl
  · rw [List.concat_eq_append, Block.pushPiece_concat, List.map_append, List.map_append,
      List.map_singleton, joinLast_append _ (List.cons_ne_nil _ [])]
    cases q with
    | html a => cases p <;> rfl
    | constant code raw => rfl

/-- Joining at one end and at the other may be done in any order. -/
theorem joinFirst_joinLast (x : Entry) (es : List Entry) (e : Entry) :
    joinFirst x (joinLast es e) = joinLast (joinFirst x es) e := by
  match es with
  | [] => rcases x with (_ | _) | _ <;> rcases e with (_ | _) | _ <;> rfl
  | [y] =>
      rcases x with (_ | _) | _ <;> rcases y with (_ | _) | _ <;> rcases e with (_ | _) | _ <;>
        simp [joinFirst, joinLast, String.append_assoc]
  | y :: z :: rest =>
      rw [joinLast_cons_cons]
      rcases x with (_ | _) | _ <;> rcases y with (_ | _) | _ <;>
        simp [joinFirst, joinLast_cons_cons]

/-- **One more entry** in a log. -/
theorem joinHtml_concat (es : List Entry) (e : Entry) :
    joinHtml (es ++ [e]) = joinLast (joinHtml es) e := by
  induction es with
  | nil => rcases e with (_ | _) | _ <;> rfl
  | cons x rest ih =>
      rw [joinHtml, List.cons_append, List.foldr_cons]
      rw [show (rest ++ [e]).foldr joinFirst [] = joinLast (joinHtml rest) e from ih,
        joinFirst_joinLast]
      rfl

/-! ### Sections -/

/-- A section of what a frame holds: a block of markup or a spot. -/
inductive Stretch where
  | block (b : Block)
  | spot (reference : Option Nat) (kind : SpotKind)

namespace Stretch

/-- The block of markup. -/
def block? : Stretch → Option Block
  | .block b => some b
  | .spot _ _ => none

/-- Whether it is a spot. -/
def isSpot : Stretch → Bool
  | .block _ => false
  | .spot _ _ => true

/-- What it holds. -/
def entries : Stretch → List Entry
  | .block b => b.pieces.map Entry.piece
  | .spot reference kind => [.spot reference kind]

/-- What it adds to the markup on the server. -/
def commands (names : Reactive) : Stretch → List Command
  | .block b => [Server.add b.code]
  | .spot _ kind => (Server.renderKind kind).commands names

end Stretch

/-- The spots of some sections; `n` blocks stand before them. -/
def spotsAt (n : Nat) : List Stretch → List Spot
  | [] => []
  | .block _ :: rest => spotsAt (n + 1) rest
  | .spot reference kind :: rest => .mk reference n kind :: spotsAt n rest

/-- What a frame holds as sections: its blocks and spots in order, no two blocks side by side and none
of them empty. -/
structure Lays (f : Frame) (sections : List Stretch) : Prop where
  blocks : f.blocks = sections.filterMap Stretch.block?
  spots : f.spots = spotsAt 0 sections
  isSealed : f.isSealed = sections.getLast?.any Stretch.isSpot
  apart : sections.IsChain fun a b => a.isSpot = true ∨ b.isSpot = true
  nonempty : ∀ b, .block b ∈ sections → b.pieces ≠ []

theorem spotsAt_append (n : Nat) (a b : List Stretch) :
    spotsAt n (a ++ b) = spotsAt n a ++ spotsAt (n + (a.filterMap Stretch.block?).length) b := by
  induction a generalizing n with
  | nil => rfl
  | cons x rest ih =>
      cases x with
      | block c =>
          rw [List.cons_append, spotsAt, spotsAt, ih, List.filterMap_cons_some (f := Stretch.block?) rfl,
            List.length_cons, Nat.add_right_comm, Nat.add_assoc]
      | spot reference kind =>
          rw [List.cons_append, spotsAt, spotsAt, ih, List.filterMap_cons_none rfl, List.cons_append]

theorem lays_empty : Lays .empty [] where
  blocks := rfl
  spots := rfl
  isSealed := rfl
  apart := .nil
  nonempty := by simp

/-- A block is never empty once something was added to it. -/
theorem pushPiece_ne_nil (ps : List Piece) (p : Piece) : Block.pushPiece ps p ≠ [] := by
  intro hempty
  have hentries := map_pushPiece ps p
  rw [hempty] at hentries
  rcases List.eq_nil_or_concat ps with rfl | ⟨front, q, rfl⟩
  · simp [joinLast] at hentries
  · rw [List.concat_eq_append, List.map_append, joinLast_append _ (by simp)] at hentries
    rcases q with _ | _ <;> rcases p with _ | _ <;> simp [joinLast] at hentries

/-- **A spot** that is added is the last section. -/
theorem Lays.pushSpot {f : Frame} {sections : List Stretch} (h : Lays f sections)
    (reference : Option Nat) (kind : SpotKind) :
    Lays (f.pushSpot reference kind) (sections ++ [.spot reference kind]) where
  blocks := by
    rw [List.filterMap_append, ← h.blocks]
    exact (List.append_nil _).symm
  spots := by
    rw [Frame.spots_pushSpot, spotsAt_append, ← h.blocks, ← h.spots, Nat.zero_add]
    rfl
  isSealed := by
    rw [List.getLast?_concat]
    rfl
  apart := h.apart.append (List.isChain_singleton _) (by simp [Stretch.isSpot])
  nonempty := by
    intro b hb
    exact h.nonempty b (by simpa using hb)

/-- A piece behind a spot, or at the start, makes a new block. -/
theorem Lays.pushPiece_new {f : Frame} {sections : List Stretch} (h : Lays f sections)
    (hlast : ∀ s ∈ sections.getLast?, s.isSpot = true) (p : Piece) :
    Lays (f.pushPiece p) (sections ++ [.block (Block.push {} p)]) := by
  have hframe : f.pushPiece p = .mk (f.blocks ++ [Block.push {} p]) f.spots false := by
    unfold Frame.pushPiece
    split
    · rfl
    · next hopen =>
        -- nothing is sealed only if there is no section at all
        obtain rfl : sections = [] := by
          by_contra hne
          rw [h.isSealed, List.getLast?_eq_some_getLast hne] at hopen
          exact hopen (hlast _ (List.getLast?_eq_some_getLast hne))
        rw [show f.blocks = [] from h.blocks]
        rfl
  rw [hframe]
  refine ⟨?_, ?_, ?_, ?_, ?_⟩
  · rw [List.filterMap_append, ← h.blocks]
    rfl
  · rw [spotsAt_append, ← h.spots]
    exact (List.append_nil _).symm
  · rw [List.getLast?_concat]
    rfl
  · refine h.apart.append (List.isChain_singleton _) ?_
    intro s hs t _
    exact .inl (hlast s hs)
  · intro b hb
    rcases List.mem_append.mp hb with hb | hb
    · exact h.nonempty b hb
    · obtain rfl : b = Block.push {} p := by simpa using hb
      exact pushPiece_ne_nil [] p

/-- A piece behind a block goes into it. -/
theorem Lays.pushPiece_last {f : Frame} {front : List Stretch} {b : Block}
    (h : Lays f (front ++ [.block b])) (p : Piece) :
    Lays (f.pushPiece p) (front ++ [.block (b.push p)]) := by
  have hblocks : f.blocks = front.filterMap Stretch.block? ++ [b] := by
    rw [h.blocks, List.filterMap_append]
    rfl
  have hspots : f.spots = spotsAt 0 front := by
    rw [h.spots, spotsAt_append]
    exact List.append_nil _
  have hframe : f.pushPiece p =
      .mk (front.filterMap Stretch.block? ++ [b.push p]) (spotsAt 0 front) false := by
    have hopen : f.isSealed = false := by
      rw [h.isSealed, List.getLast?_concat]
      rfl
    rw [Frame.pushPiece, hopen, if_neg Bool.false_ne_true, hblocks, Frame.pushLast_concat, hspots]
  obtain ⟨hfront, -, hnext⟩ := List.isChain_append.mp h.apart
  rw [hframe]
  refine ⟨?_, ?_, ?_, ?_, ?_⟩
  · rw [List.filterMap_append]
    rfl
  · rw [spotsAt_append]
    exact (List.append_nil _).symm
  · rw [List.getLast?_concat]
    rfl
  · refine hfront.append (List.isChain_singleton _) ?_
    intro s hs t ht
    obtain rfl : t = .block (b.push p) := by simpa using ht.symm
    exact hnext s hs (.block b) rfl
  · intro c hc
    rcases List.mem_append.mp hc with hc | hc
    · exact h.nonempty c (List.mem_append_left _ hc)
    · obtain rfl : c = b.push p := by simpa using hc
      exact pushPiece_ne_nil b.pieces p

/-- **A piece of markup** that is added is the last entry, or part of it. -/
theorem Lays.pushPiece {f : Frame} {sections : List Stretch} (h : Lays f sections) (p : Piece) :
    ∃ sections', Lays (f.pushPiece p) sections' ∧
      sections'.flatMap Stretch.entries = joinLast (sections.flatMap Stretch.entries) (.piece p) := by
  have hentries : ∀ front : List Stretch, ∀ x : Stretch,
      (front ++ [x]).flatMap Stretch.entries = front.flatMap Stretch.entries ++ x.entries := by
    intro front x
    rw [List.flatMap_append, List.flatMap_singleton]
  rcases List.eq_nil_or_concat sections with rfl | ⟨front, last, rfl⟩
  · exact ⟨_, h.pushPiece_new (by simp) p, rfl⟩
  · rw [List.concat_eq_append] at h ⊢
    cases last with
    | block b =>
        refine ⟨_, h.pushPiece_last p, ?_⟩
        have hne : b.pieces.map Entry.piece ≠ [] := by
          simpa using h.nonempty b (by simp)
        rw [hentries, hentries]
        show _ ++ (Block.pushPiece b.pieces p).map Entry.piece =
          joinLast (_ ++ b.pieces.map Entry.piece) (.piece p)
        rw [map_pushPiece, joinLast_append _ hne]
    | spot reference kind =>
        refine ⟨_, h.pushPiece_new (by simp [Stretch.isSpot]) p, ?_⟩
        have hne : Stretch.entries (.spot reference kind) ≠ [] := List.cons_ne_nil _ _
        rw [hentries, hentries, joinLast_append _ hne, List.append_assoc]
        rfl

/-- **One more addition** leaves a frame that is the log of all additions. -/
theorem Lays.push {f : Frame} {sections : List Stretch} (h : Lays f sections) (x : Push) :
    ∃ sections', Lays (f.push x) sections' ∧ sections'.flatMap Stretch.entries =
      x.entry?.elim (sections.flatMap Stretch.entries) (joinLast (sections.flatMap Stretch.entries)) := by
  cases x with
  | html text =>
      by_cases hempty : text.isEmpty = true
      · refine ⟨sections, ?_, ?_⟩
        · rwa [Frame.push, Frame.pushHtml, if_pos hempty]
        · rw [Push.entry?, if_pos hempty]
          rfl
      · rw [Push.entry?, if_neg hempty, Frame.push, Frame.pushHtml, if_neg hempty]
        exact h.pushPiece (.html text)
  | constant code raw => exact h.pushPiece (.constant code raw)
  | spot reference kind =>
      refine ⟨_, h.pushSpot reference kind, ?_⟩
      rw [List.flatMap_append, List.flatMap_singleton]
      exact (joinLast_spot _ reference kind).symm

/-- **A run.**  A frame that is made by additions has their log as its sections. -/
theorem exists_lays (pushes : List Push) :
    ∃ sections, Lays (Frame.ofPushes pushes) sections ∧
      sections.flatMap Stretch.entries = log pushes := by
  induction pushes using List.reverseRecOn with
  | nil => exact ⟨[], lays_empty, rfl⟩
  | append_singleton pushes x ih =>
      obtain ⟨sections, h, hlog⟩ := ih
      obtain ⟨sections', h', hentries⟩ := h.push x
      refine ⟨sections', ?_, ?_⟩
      · rwa [Frame.ofPushes, List.foldl_concat]
      · rw [hentries, hlog, log, log, List.filterMap_append]
        cases hx : x.entry? with
        | none => simp [hx]
        | some e =>
            rw [show [x].filterMap Push.entry? = [e] by simp [hx], joinHtml_concat]
            rfl

/-! ### The code -/

/-- A spot that no block stands before is the first to be emitted. -/
theorem interleave_spot {position n : Nat} (h : position ≤ n) (blocks : List Block)
    (commands : List Command) (spots : List (Nat × List Command)) :
    Server.interleave n blocks ((position, commands) :: spots) =
      commands ++ Server.interleave n blocks spots := by
  cases blocks with
  | nil => rfl
  | cons b rest => simp [Server.interleave, h]

/-- A block is the first to be emitted if it stands before all spots. -/
theorem interleave_block {n : Nat} {spots : List (Nat × List Command)} (h : ∀ s ∈ spots, n < s.1)
    (b : Block) (blocks : List Block) :
    Server.interleave n (b :: blocks) spots =
      Server.add b.code :: Server.interleave (n + 1) blocks spots := by
  cases spots with
  | nil => rfl
  | cons s rest =>
      have hs : ¬ s.1 ≤ n := Nat.not_le.mpr (h s List.mem_cons_self)
      simp [Server.interleave, hs]

theorem le_of_mem_spotList (names : Reactive) (sections : List Stretch) (n : Nat) :
    ∀ s ∈ Server.spotList names (spotsAt n sections), n ≤ s.1 := by
  induction sections generalizing n with
  | nil => simp [spotsAt, Server.spotList]
  | cons x rest ih =>
      cases x with
      | block b => exact fun s hs => Nat.le_of_succ_le (ih (n + 1) s hs)
      | spot reference kind =>
          rw [spotsAt, Server.spotList]
          exact List.forall_mem_cons.mpr ⟨Nat.le_refl n, ih n⟩

/-- **Sections are emitted in order**, although blocks and spots come from two lists. -/
theorem interleave_spotsAt (names : Reactive) (sections : List Stretch) (n : Nat) :
    Server.interleave n (sections.filterMap Stretch.block?)
        (Server.spotList names (spotsAt n sections)) =
      sections.flatMap (Stretch.commands names) := by
  induction sections generalizing n with
  | nil => rfl
  | cons x rest ih =>
      cases x with
      | block b =>
          rw [List.filterMap_cons_some (f := Stretch.block?) rfl, spotsAt,
            interleave_block (le_of_mem_spotList names rest (n + 1)), ih]
          rfl
      | spot reference kind =>
          rw [List.filterMap_cons_none rfl, spotsAt, Server.spotList,
            interleave_spot (Nat.le_refl n), ih, ← Server.commands_renderKind]
          rfl

theorem Lays.statements {f : Frame} {sections : List Stretch} (h : Lays f sections)
    (names : Reactive) :
    (Server.renderStatements f).commands names = sections.flatMap (Stretch.commands names) := by
  obtain ⟨blocks, spots, isSealed⟩ := f
  have hblocks : blocks = sections.filterMap Stretch.block? := h.blocks
  have hspots : spots = spotsAt 0 sections := h.spots
  rw [Server.commands_renderStatements, Server.statements, hblocks, hspots, interleave_spotsAt]

/-! ### Spots and markup -/

/-- Joining markup leaves the spots as they are. -/
theorem spots_joinHtml (es : List Entry) :
    (joinHtml es).filterMap Entry.spot? = es.filterMap Entry.spot? := by
  induction es using List.reverseRecOn with
  | nil => rfl
  | append_singleton es e ih =>
      have hlast : ∀ es : List Entry,
          (joinLast es e).filterMap Entry.spot? = es.filterMap Entry.spot? ++ e.spot?.toList := by
        intro es
        rcases List.eq_nil_or_concat es with rfl | ⟨front, x, rfl⟩
        · rcases e with _ | _ <;> rfl
        · rw [List.concat_eq_append, joinLast_append front (List.cons_ne_nil x []),
            List.filterMap_append, List.filterMap_append, List.append_assoc]
          congr 1
          rcases x with (_ | _) | _ <;> rcases e with (_ | _) | _ <;> rfl
      rw [joinHtml_concat, hlast, ih, List.filterMap_append]
      congr 1

/-- The pieces that are added to a block one by one are joined as the entries of a log are. -/
theorem map_foldl_push (ps : List Piece) :
    (ps.foldl Block.push {}).pieces.map Entry.piece = joinHtml (ps.map Entry.piece) := by
  induction ps using List.reverseRecOn with
  | nil => rfl
  | append_singleton ps p ih =>
      rw [List.foldl_concat, List.map_append, List.map_singleton, joinHtml_concat, ← ih]
      exact map_pushPiece _ p

/-- The pieces of the blocks are those of the sections. -/
theorem pieces_of_sections (sections : List Stretch) :
    (sections.filterMap Stretch.block?).flatMap Block.pieces =
      (sections.flatMap Stretch.entries).filterMap Entry.piece? := by
  induction sections with
  | nil => rfl
  | cons x rest ih =>
      rw [List.flatMap_cons, List.filterMap_append, ← ih]
      cases x with
      | block b =>
          rw [List.filterMap_cons_some (f := Stretch.block?) rfl, List.flatMap_cons]
          congr 1
          simp [Stretch.entries, List.filterMap_map, Function.comp_def, Entry.piece?]
      | spot reference kind => rfl

/-- What a block comes to does not depend on how its markup was divided. -/
theorem shown_foldl_push (value : String → String) (ps : List Piece) :
    (ps.foldl Block.push {}).shown value = String.join (ps.map (Piece.shown value)) := by
  induction ps using List.reverseRecOn with
  | nil => rfl
  | append_singleton ps p ih => rw [List.foldl_concat, Block.shown_push, ih]; simp

/-- Every spot that is added is in the log once, in order. -/
theorem spots_log (pushes : List Push) :
    (log pushes).filterMap Entry.spot? = pushes.filterMap Push.spot? := by
  rw [log, spots_joinHtml, List.filterMap_filterMap]
  congr 1
  funext x
  cases x with
  | html text =>
      rw [Push.entry?]
      split <;> rfl
  | constant code raw => rfl
  | spot reference kind => rfl

/-- The code for the browser starts with all markup of the frame. -/
theorem head?_body (names : Reactive) (f : Frame) : ((Client.renderBody f).commands names).head? =
    some (.line ("const $node = $.template(" ++ f.markup.code ++ ");")) := by
  rw [Client.commands_renderBody]
  cases f
  simp [Client.body]

/-- The markup of a frame comes to what its blocks come to one after another. -/
theorem Frame.shown_markup (f : Frame) (value : String → String) :
    f.markup.shown value = String.join (f.blocks.map (Block.shown value)) := by
  rw [Frame.markup, shown_foldl_push]
  induction f.blocks with
  | nil => rfl
  | cons b rest ih =>
      rw [List.flatMap_cons, List.map_append, String.join_append, ih, List.map_cons, String.join_cons,
        Block.shown]

/-- **A frame is a log** of what was added to it, whatever was added.  The code for the server goes
through sections, blocks and spots, that are this log: all that was added, in order, without empty
markup and with consecutive markup joined.  Every spot is there once.  The code for the browser starts
with the same log without its spots, and with the markup joined that then follows on markup, so that
it comes to the same markup as the blocks of the server one after another. -/
theorem statements_log (pushes : List Push) :
    (∃ sections : List Stretch,
      sections.flatMap Stretch.entries = log pushes ∧
      (sections.IsChain fun a b => a.isSpot = true ∨ b.isSpot = true) ∧
      (∀ b, .block b ∈ sections → b.pieces ≠ []) ∧
      (Frame.ofPushes pushes).blocks = sections.filterMap Stretch.block? ∧
      ∀ names, (Server.renderStatements (Frame.ofPushes pushes)).commands names =
        sections.flatMap (Stretch.commands names)) ∧
    (log pushes).filterMap Entry.spot? = pushes.filterMap Push.spot? ∧
    (Frame.ofPushes pushes).markup.pieces.map Entry.piece =
      joinHtml (((log pushes).filterMap Entry.piece?).map Entry.piece) ∧
    (∀ names, ((Client.renderBody (Frame.ofPushes pushes)).commands names).head? =
      some (.line ("const $node = $.template(" ++ (Frame.ofPushes pushes).markup.code ++ ");"))) ∧
    ∀ value, (Frame.ofPushes pushes).markup.shown value =
      String.join ((Frame.ofPushes pushes).blocks.map (Block.shown value)) := by
  obtain ⟨sections, h, hlog⟩ := exists_lays pushes
  have hpieces : (Frame.ofPushes pushes).blocks.flatMap Block.pieces =
      (log pushes).filterMap Entry.piece? := by
    rw [h.blocks, pieces_of_sections, hlog]
  refine ⟨⟨sections, hlog, h.apart, h.nonempty, h.blocks, h.statements⟩, spots_log pushes, ?_,
    fun names => head?_body names (Frame.ofPushes pushes), (Frame.ofPushes pushes).shown_markup⟩
  rw [Frame.markup, map_foldl_push, hpieces]

end Stencil.Render
