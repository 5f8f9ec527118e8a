import Stencil.Proofs.Gathered

/-!
# Texts are part of the markup

Text is dropped in three places: between the blocks of a chain of conditions, as the fallback of a
slot, and as the content that an invocation gives to the slot without a name.  In all of them it is
dropped only if it is nothing but whitespace of any script (`isSpaces`).  Every literal text of a node
that is compiled and holds another character is part of the static markup of its component
(`addDocument_shows`).
-/

namespace Stencil

open Stencil.Markup Stencil.Render Stencil.Text
open Stencil.Script (Language)

namespace Render

/-- Whether a text is part of the static markup of a block. -/
def Block.Shows (b : Block) (t : String) : Prop :=
  ∃ html, .html html ∈ b.pieces ∧ t.toList <:+: html.toList

/-- Whether a text is part of one of the blocks of a frame. -/
def Frame.Shows (f : Frame) (t : String) : Prop := ∃ b ∈ f.blocks, b.Shows t

/-- Whether a text is part of a frame or of one of the frames inside it. -/
def Frame.Holds (f : Frame) (t : String) : Prop := ∃ g ∈ f.frames, g.Shows t

instance (b : Block) (t : String) : Decidable (b.Shows t) :=
  decidable_of_iff (∃ html ∈ b.pieces.filterMap Block.htmlOf?, t.toList <:+: html.toList) <| by
    refine exists_congr fun html => and_congr_left fun _ => ?_
    rw [List.mem_filterMap]
    constructor
    · rintro ⟨p, hp, hhtml⟩
      cases p with
      | html text => exact Option.some.inj hhtml ▸ hp
      | constant code raw => simp [Block.htmlOf?] at hhtml
    · exact fun hmem => ⟨_, hmem, rfl⟩

instance (f : Frame) (t : String) : Decidable (f.Shows t) :=
  inferInstanceAs (Decidable (∃ b ∈ f.blocks, b.Shows t))

namespace Block

variable {b : Block} {t : String}

/-- What is added goes behind the last piece, or becomes part of it. -/
theorem pushPiece_keeps (ps : List Piece) (p : Piece) :
    (∀ html, .html html ∈ ps → ∃ more, .html (html ++ more) ∈ pushPiece ps p) ∧
      ∀ html, p = .html html → ∃ before, .html (before ++ html) ∈ pushPiece ps p := by
  rcases List.eq_nil_or_concat ps with rfl | ⟨init, q, rfl⟩
  · refine ⟨by simp, fun html hp => ⟨"", ?_⟩⟩
    simp [pushPiece, hp]
  · rw [List.concat_eq_append, pushPiece_concat]
    refine ⟨fun html hmem => ?_, fun html hp => ?_⟩
    · rcases List.mem_append.mp hmem with hmem | hmem
      · exact ⟨"", by simp [hmem]⟩
      · obtain rfl := List.mem_singleton.mp hmem
        cases p with
        | html more => exact ⟨more, by simp [pushPiece]⟩
        | constant code raw => exact ⟨"", by simp [pushPiece]⟩
    · subst hp
      cases q with
      | html before => exact ⟨before, by simp [pushPiece]⟩
      | constant code raw => exact ⟨"", by simp [pushPiece]⟩

/-- What a block shows, it still shows with more at its end. -/
theorem Shows.push (h : b.Shows t) (p : Piece) : (b.push p).Shows t := by
  obtain ⟨html, hmem, ht⟩ := h
  obtain ⟨more, hmore⟩ := (pushPiece_keeps b.pieces p).1 html hmem
  refine ⟨html ++ more, hmore, ht.trans ?_⟩
  rw [String.toList_append]
  exact (List.prefix_append _ _).isInfix

/-- Markup that is added is shown. -/
theorem shows_push {html : String} (ht : t.toList <:+: html.toList) :
    (b.push (.html html)).Shows t := by
  obtain ⟨before, hmem⟩ := (pushPiece_keeps b.pieces (.html html)).2 html rfl
  refine ⟨before ++ html, hmem, ht.trans ?_⟩
  rw [String.toList_append]
  exact (List.suffix_append _ _).isInfix

/-- A block that shows more than whitespace is not blank. -/
theorem Shows.not_isBlank (h : b.Shows t) (ht : isSpaces t = false) : b.isBlank = false := by
  obtain ⟨html, hmem, hpart⟩ := h
  rw [Bool.eq_false_iff]
  intro hblank
  have hall := List.all_eq_true.mp hblank _ hmem
  have hspaces : isSpaces t = true := by
    refine List.all_eq_true.mpr fun c hc => ?_
    exact List.all_eq_true.mp hall c (hpart.mem hc)
  rw [hspaces] at ht
  exact Bool.noConfusion ht

end Block

namespace Frame

variable {f : Frame} {t : String}

theorem blocks_pushPiece (f : Frame) (p : Piece) :
    ∃ front b, (f.pushPiece p).blocks = front ++ [b.push p] ∧
      (f.blocks = front ++ [b] ∨ f.blocks = front ∧ b = ⟨[]⟩) := by
  have hlast : ∀ blocks : List Block, ∃ front b, pushLast blocks p = front ++ [b.push p] ∧
      (blocks = front ++ [b] ∨ blocks = front ∧ b = ⟨[]⟩) := by
    intro blocks
    fun_induction pushLast blocks p with
    | case1 => exact ⟨[], ⟨[]⟩, rfl, .inr ⟨rfl, rfl⟩⟩
    | case2 b => exact ⟨[], b, rfl, .inl rfl⟩
    | case3 b rest q hrest ih =>
        obtain ⟨front, last, hpushed, hblocks⟩ := ih
        refine ⟨b :: front, last, by rw [hpushed, List.cons_append], ?_⟩
        rcases hblocks with hblocks | ⟨hblocks, hnew⟩
        · exact .inl (by rw [hblocks, List.cons_append])
        · exact .inr ⟨by rw [hblocks], hnew⟩
  unfold pushPiece
  split
  · exact ⟨f.blocks, ⟨[]⟩, rfl, .inr ⟨rfl, rfl⟩⟩
  · exact hlast f.blocks

/-- What a frame shows, it still shows with a piece added. -/
theorem Shows.pushPiece (h : f.Shows t) (p : Piece) : (f.pushPiece p).Shows t := by
  obtain ⟨front, last, hpushed, hblocks⟩ := f.blocks_pushPiece p
  obtain ⟨b, hmem, hb⟩ := h
  rcases hblocks with hblocks | ⟨hblocks, -⟩
  · rw [hblocks, List.mem_append, List.mem_singleton] at hmem
    rcases hmem with hmem | rfl
    · exact ⟨b, by simp [hpushed, hmem], hb⟩
    · exact ⟨b.push p, by simp [hpushed], hb.push p⟩
  · exact ⟨b, by simp [hpushed, ← hblocks, hmem], hb⟩

/-- **Markup that is added is shown.** -/
theorem shows_pushHtml {html : String} (ht : t.toList <:+: html.toList) (hne : t ≠ "") :
    (f.pushHtml html).Shows t := by
  have hsome : html.isEmpty = false := by
    rw [Bool.eq_false_iff]
    intro hempty
    rw [String.isEmpty_iff.mp hempty] at ht
    exact hne (String.toList_inj.mp (List.infix_nil.mp ht))
  obtain ⟨front, last, hpushed, -⟩ := f.blocks_pushPiece (.html html)
  rw [pushHtml, if_neg (by simp [hsome])]
  exact ⟨last.push (.html html), by simp [hpushed], Block.shows_push ht⟩

/-- **What a frame shows is part of its markup as a whole.** -/
theorem Shows.markup (h : f.Shows t) : f.markup.Shows t := by
  obtain ⟨b, hb, html, hmem, ht⟩ := h
  have hpiece : Piece.html html ∈ f.blocks.flatMap Block.pieces := List.mem_flatMap.mpr ⟨b, hb, hmem⟩
  have hkeeps : ∀ (ps : List Piece) (b : Block), b.Shows t → (ps.foldl Block.push b).Shows t := by
    intro ps
    induction ps with
    | nil => exact fun b hb => hb
    | cons p rest ih => exact fun b hb => ih _ (hb.push p)
  obtain ⟨before, behind, hsplit⟩ := List.append_of_mem hpiece
  rw [Frame.markup, hsplit, List.foldl_append, List.foldl_cons]
  exact hkeeps behind _ (Block.shows_push ht)

theorem holds_iff : f.Holds t ↔ f.Shows t ∨ ∃ g ∈ spotFrames f.spots, g.Shows t := by
  simp [Holds, frames_eq]

theorem Holds.pushPiece (h : f.Holds t) (p : Piece) : (f.pushPiece p).Holds t := by
  rw [holds_iff] at h ⊢
  rw [spots_pushPiece]
  exact h.imp_left fun h => h.pushPiece p

/-- A spot adds what the frames inside it hold. -/
theorem holds_pushSpot (reference : Option Nat) (kind : SpotKind) :
    (f.pushSpot reference kind).Holds t ↔ f.Holds t ∨ ∃ g ∈ kind.frames, g.Shows t := by
  have hblocks : (f.pushSpot reference kind).Shows t ↔ f.Shows t := Iff.rfl
  rw [holds_iff, holds_iff, hblocks, spots_pushSpot, spotFrames_append, or_assoc]
  simp [spotFrames, or_and_right, exists_or]

/-- A frame that renders nothing holds no more than whitespace. -/
theorem not_holds_of_isEmpty (h : f.isEmpty = true) (ht : isSpaces t = false) : ¬ f.Holds t := by
  rw [holds_iff, spots_of_isEmpty h]
  rintro (⟨b, hmem, hb⟩ | ⟨g, hg, -⟩)
  · have hblank := List.all_eq_true.mp (Bool.and_eq_true_iff.mp h).2 b hmem
    rw [hb.not_isBlank ht] at hblank
    exact Bool.false_ne_true hblank
  · simp [spotFrames] at hg

end Frame

end Render

/-- The literal texts of a text. -/
def Markup.TextContent.literals : TextContent → List String
  | .raw text => [text]
  | .parts ps => ps.filterMap literalOf?

/-- The literal texts of a node. -/
def Markup.Document.literals (d : Document) (id : Nat) : List String :=
  match (d.node id).content with
  | .text content => content.literals
  | _ => []

/-- What counts are literal texts that are more than whitespace. -/
def textTally (d : Document) : Tally (Multiset String) where
  chain _ := 0
  stray _ := 0
  call _ := 0
  text id := ↑((d.literals id).filter fun t => !isSpaces t)

namespace Walk

/-- The texts that count in a stretch of the walk are held by the frame that is being filled, or shown
by one of the frames that were filled besides; what the frame held before, it still holds. -/
structure Shows (w w' : Walk) (loose : List Frame) (texts : Multiset String) : Prop where
  outer : w'.component.stack.tail = w.component.stack.tail
  keeps : ∀ t, w.frame.Holds t → w'.frame.Holds t
  shown : ∀ t ∈ texts, isSpaces t = false ∧ (w'.frame.Holds t ∨ ∃ g ∈ loose, g.Shows t)

namespace Shows

variable {w w' w₁ w₂ w₃ : Walk} {loose loose' : List Frame} {texts texts' : Multiset String}

/-- Nothing is lost at the leaves. -/
theorem quiet (h : w.Quiet w') : w.Shows w' [] 0 := by
  have hkept : w'.component.stack.tail = w.component.stack.tail ∧
      ∀ t, w.frame.Holds t → w'.frame.Holds t := by
    induction h with
    | refl w => exact ⟨rfl, fun t ht => ht⟩
    | trans _ _ ih ih' => exact ⟨ih'.1.trans ih.1, fun t ht => ih'.2 t (ih.2 t ht)⟩
    | html w text =>
        refine ⟨Component.stack_tail_mapFrame _ _, fun t ht => ?_⟩
        rw [frame_html, Frame.pushHtml]
        split
        · exact ht
        · exact ht.pushPiece _
    | constant w code raw =>
        refine ⟨Component.stack_tail_mapFrame _ _, fun t ht => ?_⟩
        rw [frame_constant]
        exact ht.pushPiece _
    | spot w reference hplain =>
        refine ⟨Component.stack_tail_mapFrame _ _, fun t ht => ?_⟩
        rw [frame_spot, Frame.holds_pushSpot]
        exact .inl ht
    | warn w hp span => exact ⟨rfl, fun t ht => ht⟩
    | beside w imports hstack =>
        refine ⟨congrArg List.tail hstack, fun t ht => ?_⟩
        rwa [frame_beside imports hstack]
  exact ⟨hkept.1, hkept.2, by simp⟩

/-- **Stretches of the walk add up.** -/
theorem trans (h : w₁.Shows w₂ loose texts) (h' : w₂.Shows w₃ loose' texts') :
    w₁.Shows w₃ (loose ++ loose') (texts + texts') := by
  refine ⟨h'.outer.trans h.outer, fun t ht => h'.keeps t (h.keeps t ht), fun t ht => ?_⟩
  rcases Multiset.mem_add.mp ht with ht | ht
  · obtain ⟨hsolid, hheld | ⟨g, hg, hshows⟩⟩ := h.shown t ht
    · exact ⟨hsolid, .inl (h'.keeps t hheld)⟩
    · exact ⟨hsolid, .inr ⟨g, List.mem_append_left _ hg, hshows⟩⟩
  · obtain ⟨hsolid, hheld | ⟨g, hg, hshows⟩⟩ := h'.shown t ht
    · exact ⟨hsolid, .inl hheld⟩
    · exact ⟨hsolid, .inr ⟨g, List.mem_append_right _ hg, hshows⟩⟩

/-- What was filled in a frame of its own, once the frame is ended. -/
theorem popFrame (h : (w.map (·.pushFrame)).Shows w' loose texts) :
    w.Shows { w' with component := w'.component.popFrame.2 }
      (w'.component.popFrame.1.frames ++ loose) texts := by
  have hstack : w'.component.stack.tail = w.component.stack := h.outer
  obtain ⟨hframe, hpopped⟩ := Component.popFrame_of_stack hstack
  refine ⟨congrArg List.tail hpopped, fun t ht => ?_, fun t ht => ?_⟩
  · have hsame := frame_beside w'.imports hpopped
    exact hsame ▸ ht
  · obtain ⟨hsolid, ⟨g, hg, hshows⟩ | ⟨g, hg, hshows⟩⟩ := h.shown t ht
    · refine ⟨hsolid, .inr ⟨g, List.mem_append_left _ ?_, hshows⟩⟩
      rwa [hframe]
    · exact ⟨hsolid, .inr ⟨g, List.mem_append_right _ hg, hshows⟩⟩

/-- A frame that renders nothing holds no text that counts. -/
theorem forget {inner : Frame} (h : w.Shows w' (inner.frames ++ loose) texts)
    (hinner : inner.isEmpty = true) : w.Shows w' loose texts := by
  refine ⟨h.outer, h.keeps, fun t ht => ?_⟩
  obtain ⟨hsolid, hheld | ⟨g, hg, hshows⟩⟩ := h.shown t ht
  · exact ⟨hsolid, .inl hheld⟩
  · rcases List.mem_append.mp hg with hg | hg
    · exact absurd ⟨g, hg, hshows⟩ (Frame.not_holds_of_isEmpty hinner hsolid)
    · exact ⟨hsolid, .inr ⟨g, hg, hshows⟩⟩

/-- The frames of a spot. -/
theorem spot {kind : SpotKind} (h : w.Shows w' kind.frames texts) (reference : Option Nat) :
    w.Shows (w'.spot reference kind) [] texts := by
  refine ⟨(Component.stack_tail_mapFrame _ _).trans h.outer, fun t ht => ?_, fun t ht => ?_⟩
  · rw [frame_spot, Frame.holds_pushSpot]
    exact .inl (h.keeps t ht)
  · obtain ⟨hsolid, hheld⟩ := h.shown t ht
    refine ⟨hsolid, .inl ?_⟩
    rwa [frame_spot, Frame.holds_pushSpot]

end Shows

end Walk

/-- The literal parts of a text are shown. -/
theorem holds_walkParts {t : String} (hne : t ≠ "") (parts : List Part) (w : Walk)
    (ht : t ∈ parts.filterMap literalOf?) : (walkParts w parts).frame.Holds t := by
  fun_induction walkParts w parts with
  | case1 w => simp at ht
  | case2 w text rest ih =>
      have hcons : (Part.literal text :: rest).filterMap literalOf? =
          text :: rest.filterMap literalOf? := rfl
      rw [hcons, List.mem_cons] at ht
      rcases ht with rfl | hrest
      · have hfirst : (w.html t).frame.Holds t := by
          rw [Walk.frame_html, Frame.holds_iff]
          exact .inl (Frame.shows_pushHtml List.infix_rfl hne)
        exact (Walk.Shows.quiet (walkParts_quiet _ rest)).keeps t hfirst
      · exact ih hrest
  | case3 w e html rest hstatic ih => exact ih (by simpa [literalOf?] using ht)
  | case4 w e html rest hstatic reference w' hanchor ih => exact ih (by simpa [literalOf?] using ht)

/-- **A text** is shown, as far as it is more than whitespace. -/
theorem walkText_shows (w : Walk) (content : TextContent) : w.Shows (walkText w content) []
    ↑(content.literals.filter fun t => !isSpaces t) := by
  have hquiet := Walk.Shows.quiet (walkText_quiet w content)
  refine ⟨hquiet.outer, hquiet.keeps, fun t ht => ?_⟩
  obtain ⟨hmem, hsolid⟩ := List.mem_filter.mp (Multiset.mem_coe.mp ht)
  have hsolid : isSpaces t = false := by simpa using hsolid
  have hne : t ≠ "" := by
    rintro rfl
    simp [isSpaces] at hsolid
  refine ⟨hsolid, .inl ?_⟩
  cases content with
  | raw text =>
      obtain rfl := List.mem_singleton.mp hmem
      rw [walkText, Walk.frame_html, Frame.holds_iff]
      exact .inl (Frame.shows_pushHtml List.infix_rfl hne)
  | parts parts => exact holds_walkParts hne parts w hmem

/-- What may stand between the blocks of a chain is whitespace. -/
theorem isSpaces_of_isGap {d : Document} {id : Nat} (hgap : d.isGap id = true)
    (htext : d.isText id = true) {t : String} (ht : t ∈ d.literals id) : isSpaces t = true := by
  have htype : (d.node id).type = .text := by simpa [Document.isText] using htext
  unfold Document.literals at ht
  cases hcontent : (d.node id).content with
  | text content =>
      rw [hcontent] at ht
      cases content with
      | raw text =>
          obtain rfl := List.mem_singleton.mp ht
          simpa [Document.isGap, isFiller, htype, hcontent] using hgap
      | parts parts =>
          obtain ⟨part, hpart, hliteral⟩ := List.mem_filterMap.mp ht
          have hall : parts.all isBlankPart = true := by
            simpa [Document.isGap, isFiller, htype, hcontent] using hgap
          have hblank := List.all_eq_true.mp hall part hpart
          cases part with
          | literal text =>
              obtain rfl := Option.some.inj hliteral
              exact hblank
          | expression e html => simp [literalOf?] at hliteral
  | document | element _ | comment _ => simp [hcontent] at ht

/-- **The walk shows** all texts that are more than whitespace. -/
theorem Walk.Shows.account (x : WalkContext) : Walk.Account x (textTally x.document)
    fun w w' loose texts => w.Shows w' loose texts where
  outer h := h.outer
  quiet := quiet
  trans := trans
  popFrame := popFrame
  forget := forget
  loop h reference header := h.spot reference
  slot h reference := h.spot reference
  chain _ h reference := by
    rw [textTally, zero_add]
    exact h.spot reference
  stray _ _ w := ⟨rfl, fun t ht => ht, by simp [textTally]⟩
  call _ h reference := by
    rw [textTally, zero_add]
    exact h.spot reference
  text {id content} hcontent w := by
    have hliterals : x.document.literals id = content.literals := by
      simp [Document.literals, hcontent]
    simp only [textTally, hliterals]
    exact walkText_shows w content
  noText hother := by
    unfold textTally Document.literals
    dsimp only
    split
    · next content hcontent => exact absurd hcontent (hother content)
    · rfl
  gap id hgap htext := by
    refine Multiset.coe_eq_zero _ |>.mpr (List.filter_eq_nil_iff.mpr fun t ht => ?_)
    simp [isSpaces_of_isGap hgap htext ht]

/-- A literal text of a compiled node counts. -/
theorem mem_sum_tallied {d : Document} {ids : List Nat} {p id : Nat} {t : String} (hp : p ∈ ids)
    (hid : id ∈ d.children p) (htype : (d.node id).type = .text) (ht : t ∈ d.literals id)
    (hsolid : isSpaces t = false) :
    t ∈ ((ids.map (d.tallied (textTally d))).sum : Multiset String) := by
  have hmem : ∀ (ids : List Nat) (count : Nat → Multiset String) {i : Nat}, i ∈ ids → t ∈ count i →
      t ∈ (ids.map count).sum := by
    intro ids count i hi hcount
    obtain ⟨before, behind, rfl⟩ := List.append_of_mem hi
    simp [hcount]
  refine hmem ids _ hp ?_
  have htext : id ∈ (d.children p).filter d.isText :=
    List.mem_filter.mpr ⟨hid, by simp [Document.isText, htype]⟩
  have hown : t ∈ (textTally d).text id :=
    Multiset.mem_coe.mpr (List.mem_filter.mpr ⟨ht, by simp [hsolid]⟩)
  rw [Document.tallied, Multiset.mem_add, Multiset.mem_add]
  exact .inr (.inr (hmem _ _ htext hown))

/-- **Only whitespace is dropped.**  Let a document be made from a template that was read, and let its
components be built.  Of each text among the children of a node that is compiled, every literal text
with a character that is no whitespace stands in a block of a frame of the component, and in the
markup of that frame as a whole. -/
theorem addDocument_shows (lang : Language) (o o' : Options) (source : String)
    (h : (parseTemplate lang o source).error = none) :
    let d := (parseTemplate lang o source).document
    ∀ c ∈ (({ options := o' } : Template).addDocument lang d).1.components,
      ∀ p, d.Compiled c.root p → ∀ id ∈ d.children p, (d.node id).type = .text →
        ∀ t ∈ d.literals id, (∃ ch ∈ t.toList, isSpace ch = false) →
          ∃ f ∈ c.base.frames, (∃ b ∈ f.blocks, b.Shows t) ∧ f.markup.Shows t := by
  rintro d c hc p hp id hid htype t ht ⟨ch, hch, hspace⟩
  have hforest : d.Forest := parseTemplate_forest h
  have hsolid : isSpaces t = false := by
    rw [Bool.eq_false_iff]
    intro hall
    rw [List.all_eq_true.mp hall ch hch] at hspace
    exact Bool.noConfusion hspace
  obtain ⟨w, w', -, hbase, -, -, hshown⟩ := (Walk.Shows.account ⟨lang, o', d⟩).components hforest
    (parseTemplate_fillsGaps h) (parseTemplate_root h) c hc
  have hcompiled := (Document.mem_compiled_iff hforest.forward).mpr hp
  obtain ⟨-, hholds | ⟨g, hg, -⟩⟩ := hshown t (mem_sum_tallied hcompiled hid htype ht hsolid)
  · rw [hbase] at hholds
    obtain ⟨f, hf, hshows⟩ := hholds
    exact ⟨f, hf, hshows, hshows.markup⟩
  · simp at hg

/-- Texts that start with a non-breaking space, where text may be dropped. -/
def spacedTemplate : String :=
  "<slot>\u00a0a</slot><Card>\u00a0b</Card><if \x7bc\x7d>\u00a0</if>\u00a0d<else/>"

/-- They stay in the fallback of a slot, in the content of an invocation and behind a block. -/
theorem addDocument_shows_spaced :
    let d := (parseTemplate Script.javaScript {} spacedTemplate).document
    d.children 0 = [1, 3, 5, 7, 8] ∧
      ∀ c ∈ (({ options := {} } : Template).addDocument Script.javaScript d).1.components,
        c.root = 0 → ∀ t ∈ ["\u00a0a", "\u00a0b", "\u00a0d"],
          ∃ f ∈ c.base.frames, (∃ b ∈ f.blocks, b.Shows t) ∧ f.markup.Shows t := by
  intro d
  have hread : (parseTemplate Script.javaScript {} spacedTemplate).error = none ∧
      d.children 0 = [1, 3, 5, 7, 8] ∧ d.compiled 0 = [0, 1, 3, 5] ∧
      ∀ place ∈ [(1, 2, "\u00a0a"), (3, 4, "\u00a0b"), (0, 7, "\u00a0d")],
        place.2.1 ∈ d.children place.1 ∧ (d.node place.2.1).type = .text ∧
          d.literals place.2.1 = [place.2.2] ∧ (place.2.2.toList.any (!isSpace ·)) = true := by
    decide +kernel
  obtain ⟨herror, hchildren, hcompiled, hplaces⟩ := hread
  have hforest : d.Forest := parseTemplate_forest herror
  refine ⟨hchildren, fun c hc hroot t ht => ?_⟩
  have hplace : ∃ place ∈ [(1, 2, "\u00a0a"), (3, 4, "\u00a0b"), (0, 7, "\u00a0d")],
      place.2.2 = t ∧ place.1 ∈ d.compiled 0 := by
    rw [hcompiled]
    simpa [eq_comm] using ht
  obtain ⟨⟨p, id, text⟩, hmem, rfl, hp⟩ := hplace
  obtain ⟨hid, htype, hliterals, hsolid⟩ := hplaces _ hmem
  rw [Document.mem_compiled_iff hforest.forward, ← hroot] at hp
  exact addDocument_shows Script.javaScript {} {} spacedTemplate herror c hc p hp id hid htype text
    (by rw [hliterals]; exact List.mem_singleton_self text) (by simpa using hsolid)

/-- A text of non-breaking spaces only, none of which is a blank, is dropped as a fallback. -/
theorem not_shows_of_spaces :
    let d := (parseTemplate Script.javaScript {} "<slot>\u00a0</slot>").document
    (d.node 2).type = .text ∧ d.literals 2 = ["\u00a0"] ∧ isBlank '\u00a0' = false ∧
      2 ∈ d.children 1 ∧ d.compiled 0 = [0, 1] ∧
      ∀ c ∈ (({ options := {} } : Template).addDocument Script.javaScript d).1.components,
        ∀ f ∈ c.base.frames, ¬ f.Shows "\u00a0" ∧ ¬ f.markup.Shows "\u00a0" := by
  decide +kernel

end Stencil
