import Stencil.Proofs.Filling
import Stencil.Proofs.Imitation

/-!
# The markup of a tag

An opening tag holds one marker if its element has a reference, and none if it has not.  All other
pieces of it, its name, the attribute that confines the style and the attributes of the template,
start where no marker goes on and are plain or too poor in characters to be a marker.  The spots
that are added on the way are about the element.
-/

namespace Stencil

open Stencil.Markup Stencil.Render

namespace Render

open Stencil.Text

/-- Text without a dash imitates nothing. -/
theorem plain_of_no_dash {t : List Char} (h : '-' ∉ t) : Plain t := by
  intro w hw hi
  have hdash : ∀ w ∈ imitations, '-' ∈ w := by decide
  exact h (hi.mem (hdash w hw))

/-- Text without quotes and exclamation marks holds no marker. -/
theorem markersIn_of_no_quote {t : List Char} (hq : '"' ∉ t) (hb : '!' ∉ t) : markersIn t = [] := by
  apply markersIn_eq_nil
  intro n m hm hi
  obtain ⟨form, hform, digits, _, _, _, rfl⟩ := hm
  have hchar : ∀ form ∈ markerForms, '"' ∈ form.2 ∨ '!' ∈ form.1 := by decide
  rcases hchar form hform with hmem | hmem
  · exact hq (hi.mem (by simp [hmem]))
  · exact hb (hi.mem (by simp [hmem]))

/-- Escaping keeps text plain, whatever plain text it follows. -/
theorem Plain.escape {front t : List Char} (h : Plain (front ++ t)) :
    Plain (front ++ t.flatMap attributeChar) := by
  induction t generalizing front with
  | nil => exact h
  | cons c rest ih =>
      by_cases hc : c = '"'
      · subst hc
        have hfront : Plain front := h.mono (List.prefix_append _ _).isInfix
        have hrest : Plain ([] ++ rest.flatMap attributeChar) :=
          ih (h.mono ⟨front ++ ['"'], [], by simp⟩)
        have hword : Plain (['q', 'u', 'o', 't'] ++ ';' :: rest.flatMap attributeChar) :=
          Plain.separate (by decide) hrest (by decide)
        exact hfront.separate hword (by decide)
      · have hplain : Plain (front ++ [c] ++ rest.flatMap attributeChar) := ih (by simpa using h)
        have hone : attributeChar c = [c] := by simp [attributeChar, hc]
        rw [List.flatMap_cons, hone, ← List.append_assoc]
        exact hplain

/-- An attribute of the template is plain. -/
theorem plain_attribute {base value : List Char} (hb : Plain base) (hv : Plain value) :
    Plain (' ' :: (base ++ ['=', '"']) ++ value) := by
  have hquote : Plain ([] ++ '"' :: value) := Plain.separate (by decide) hv (by decide)
  have hequals : Plain (base ++ '=' :: ([] ++ '"' :: value)) := hb.separate hquote (by decide)
  have hspace : Plain ([] ++ ' ' :: (base ++ '=' :: ([] ++ '"' :: value))) :=
    Plain.separate (by decide) hequals (by decide)
  simpa using hspace

end Render

namespace Walk

/-- The end of a tag may follow. -/
def Closable (w : Walk) : Prop := ¬ Straddles w.frame.tail ['>']

/-- Where the text behind the last marker is plain, markup can be closed. -/
theorem closable_of_plain {w : Walk} {tail : List Char} (h : Open w.frame.tail tail)
    (hp : Plain tail) : w.Closable :=
  not_straddles_short h hp (by simp)

/-- Inside a tag: spots of its element are added, and the tag can still be ended. -/
def Tags (reference : Option Nat) (w w' : Walk) : Prop :=
  Attaches reference w w' ∧ (w.Closable → w'.Closable)

/-- Doing nothing writes nothing of a tag. -/
theorem Tags.refl (reference : Option Nat) (w : Walk) : Tags reference w w :=
  ⟨.refl reference w, id⟩

/-- Two walks that write parts of a tag write one part together. -/
theorem Tags.trans {reference : Option Nat} {w₁ w₂ w₃ : Walk} (h : Tags reference w₁ w₂)
    (h' : Tags reference w₂ w₃) : Tags reference w₁ w₃ :=
  ⟨h.1.trans h'.1, h'.2 ∘ h.2⟩

/-- A warning writes nothing of a tag. -/
theorem tags_warn (w : Walk) (reference : Option Nat) (p : Component.Problem)
    (span : Option Source.Span) : Tags reference w (w.warn p span) :=
  ⟨w.attaches_warn reference p span, id⟩

/-- A spot without frames writes nothing of a tag. -/
theorem tags_spot (w : Walk) (reference : Option Nat) {kind : SpotKind} (h : kind.frames = []) :
    Tags reference w (w.spot reference kind) := by
  refine ⟨w.attaches_spot reference h, ?_⟩
  unfold Closable
  rw [frame_spot, Frame.tail_pushSpot]
  exact id

/-- A piece of markup that starts with a space or a bracket is the only thing open after it. -/
theorem open_piece (w : Walk) (text : String) {c : Char} (hhead : text.toList.head? = some c)
    (hc : c = '<' ∨ c = ' ') :
    ¬ Straddles w.frame.tail text.toList ∧ Open (w.html text).frame.tail text.toList := by
  have hcut : ¬ Straddles w.frame.tail text.toList := by
    apply not_straddles_of_head
    intro d hd
    rw [hhead] at hd
    exact Option.some.inj hd ▸ hc
  refine ⟨hcut, ?_⟩
  rw [frame_html, Frame.tail_pushHtml _ _ hcut]
  exact open_of_head hhead hc

/-- Plain markup inside a tag. -/
theorem tags_piece (w : Walk) (reference : Option Nat) {text : String} {c : Char}
    (hhead : text.toList.head? = some c) (hc : c = '<' ∨ c = ' ') (hp : Plain text.toList) :
    Tags reference w (w.html text) := by
  obtain ⟨hcut, hopen⟩ := w.open_piece text hhead hc
  exact ⟨w.attaches_html reference hcut (markersIn_of_plain hp), fun _ => closable_of_plain hopen hp⟩

end Walk

open Walk Stencil.Text

/-- The parts of a value after plain text. -/
theorem walkValue_attaches (reference : Option Nat) (parts : List Part) (w : Walk) {tail : List Char}
    (hopen : Open w.frame.tail tail)
    (hplain : Plain (tail ++ (literalParts parts).flatMap attributeChar)) :
    Attaches reference w (walkValue w parts) ∧
      ∃ tail', Open (walkValue w parts).frame.tail tail' ∧ Plain tail' := by
  induction parts generalizing w tail with
  | nil => exact ⟨.refl reference w, tail, hopen, by simpa [literalParts] using hplain⟩
  | cons part rest ih =>
      cases part with
      | literal text =>
          have htext : (attributeText text).toList = text.toList.flatMap attributeChar := by
            simp [attributeText]
          rw [literalParts, List.flatMap_append, ← htext, ← List.append_assoc] at hplain
          have hfirst : Plain (tail ++ (attributeText text).toList) :=
            hplain.mono (List.prefix_append _ _).isInfix
          have hcut := not_straddles_of_plain hopen hfirst
          have hnone := markersIn_of_plain (hfirst.mono (List.suffix_append _ _).isInfix)
          have hopen' : Open (w.html (attributeText text)).frame.tail
              (tail ++ (attributeText text).toList) := by
            rw [frame_html, Frame.tail_pushHtml _ _ hcut]
            exact hopen.append _
          obtain ⟨hattaches, hend⟩ := ih _ hopen' hplain
          exact ⟨(w.attaches_html reference hcut hnone).trans hattaches, hend⟩
      | expression e html =>
          have hrest : Plain ([] ++ (literalParts rest).flatMap attributeChar) := by
            refine hplain.mono (List.IsSuffix.isInfix ?_)
            simp only [literalParts, List.flatMap_cons, List.nil_append]
            exact (List.suffix_append _ _).trans (List.suffix_append _ _)
          obtain ⟨hattaches, hend⟩ := ih _ (w.breaks_constant e.code false).2 hrest
          exact ⟨(w.attaches_constant reference e.code false).trans hattaches, hend⟩

/-- An attribute of static markup. -/
theorem walkStatic_tags (reference : Option Nat) (w : Walk) (a : Attribute)
    (hname : Plain a.name.base.toList) (hvalue : Plain a.value.literal) :
    Tags reference w (walkStatic w a) := by
  unfold walkStatic
  cases hv : a.value with
  | empty =>
      apply w.tags_piece reference (c := ' ') (by simp) (.inr rfl)
      simpa using Plain.separate (a := []) (by decide) hname (by decide)
  | text text quote =>
      rw [hv] at hvalue
      apply w.tags_piece reference (c := ' ') (by simp) (.inr rfl)
      have hplain := (plain_attribute hname hvalue).escape
      have hclosed := hplain.separate (b := []) (d := '"') (by decide) (by decide)
      simpa [attributeText, Value.literal] using hclosed
  | parts parts quote =>
      rw [hv] at hvalue
      obtain ⟨hcut, hopen⟩ := w.open_piece (" " ++ a.name.base ++ "=\"") (c := ' ')
        (by simp) (.inr rfl)
      have hplain := (plain_attribute hname hvalue).escape
      have htext : (" " ++ a.name.base ++ "=\"").toList =
          ' ' :: (a.name.base.toList ++ ['=', '"']) := by simp
      have hstart : Plain (" " ++ a.name.base ++ "=\"").toList := by
        rw [htext]
        exact hplain.mono (List.prefix_append _ _).isInfix
      obtain ⟨hattaches, tail, hopen', hplain'⟩ := walkValue_attaches reference parts _ hopen
        (by rw [htext]; exact hplain)
      have hcut' : ¬ Straddles _ ("\"" : String).toList :=
        not_straddles_short hopen' hplain' (by decide)
      have hnone : markersIn ("\"" : String).toList = [] :=
        markersIn_of_no_start (by decide) (by decide)
      refine ⟨((w.attaches_html reference hcut (markersIn_of_plain hstart)).trans hattaches).trans
        (attaches_html _ reference hcut' hnone), fun _ => ?_⟩
      have hopen'' := hopen'.append ['"']
      apply closable_of_plain _ (hplain'.separate (b := []) (d := '"') (by decide) (by decide))
      rw [frame_html, Frame.tail_pushHtml _ _ hcut']
      exact hopen''

/-- Modifiers write parts of a tag only. -/
theorem walkModifiers_tags (reference : Option Nat) (w : Walk) (span : Option Source.Span)
    (names : List String) : Tags reference w (walkModifiers w span names).2 := by
  induction names generalizing w with
  | nil => exact .refl reference w
  | cons name rest ih =>
      simp only [walkModifiers]
      split
      · exact ih w
      · exact (w.tags_warn reference _ _).trans (ih _)

/-- **An attribute adds to its element only.** -/
theorem walkAttribute_tags (e : Element) (reference : Option Nat) (c : Combined) (w : Walk)
    (a : Attribute) (hname : Plain a.name.base.toList) (hvalue : Plain a.value.literal) :
    Tags reference w (walkAttribute e reference c w a).2 := by
  unfold walkAttribute
  split
  · -- a plain attribute is kept for later, leaves a spot or is static
    unfold walkPlain
    split
    · exact .refl reference w
    · split
      · exact .refl reference w
      · split
        · exact w.tags_spot reference rfl
        · exact walkStatic_tags reference w a hname hvalue
  · unfold walkModifier
    split
    · exact w.tags_warn reference _ _
    · dsimp only
      split
      · exact .refl reference w
      · split
        · exact .refl reference w
        · exact w.tags_warn reference _ _
  · split
    · exact w.tags_warn reference _ _
    · exact (walkModifiers_tags reference w a.span a.name.modifiers).trans
        (tags_spot _ reference rfl)
  · split
    · exact w.tags_warn reference _ _
    · exact w.tags_spot reference rfl
  · split
    · exact w.tags_warn reference _ _
    · exact w.tags_spot reference rfl
  · exact w.tags_spot reference rfl

/-- Attributes with plain names and literals write parts of a tag only. -/
theorem walkAttributes_tags (e : Element) (reference : Option Nat) (w : Walk)
    (h : ∀ a ∈ e.attributes, Plain a.name.base.toList ∧ Plain a.value.literal) :
    Tags reference w (walkAttributes e reference w) := by
  have hfold : ∀ (as : List Attribute), (∀ a ∈ as, Plain a.name.base.toList ∧ Plain a.value.literal) →
      ∀ (c : Combined) (w : Walk),
        Tags reference w (as.foldl (fun s a => walkAttribute e reference s.1 s.2 a) (c, w)).2 := by
    intro as
    induction as with
    | nil => exact fun _ c w => .refl reference w
    | cons a rest ih =>
        intro has c w
        obtain ⟨hname, hvalue⟩ := has a List.mem_cons_self
        exact (walkAttribute_tags e reference c w a hname hvalue).trans
          (ih (fun b hb => has b (List.mem_cons_of_mem a hb)) _ _)
  have hall := hfold e.attributes h {} w
  unfold walkAttributes
  dsimp only
  have hclasses : ∀ (c : Combined) (w : Walk), Tags reference w
      (if c.classValue.isEmpty && c.toggles.isEmpty then w
        else w.spot reference (.classes c.classValue c.toggles)) := by
    intro c w
    split
    · exact .refl reference w
    · exact w.tags_spot reference rfl
  have hstyles : ∀ (c : Combined) (w : Walk), Tags reference w
      (if c.styleValue.isEmpty && c.properties.isEmpty then w
        else w.spot reference (.styles c.styleValue c.properties)) := by
    intro c w
    split
    · exact .refl reference w
    · exact w.tags_spot reference rfl
  exact (hall.trans (hclasses _ _)).trans (hstyles _ _)

/-- The attribute that confines the style, on the elements that carry it. -/
def walkScope (x : WalkContext) (id : Nat) (w : Walk) : Walk :=
  if isScopeRoot x.document w.component.root id then
    match w.component.styleHash with
    | some hash => w.html (" " ++ Style.scopeAttribute ++ "=\"" ++ hash ++ "\"")
    | none => w
  else w

/-- The mark of an element's reference, if it has one. -/
def walkMark (reference : Option Nat) (w : Walk) : Walk :=
  match reference with
  | some r => w.html (" data-ref=\"" ++ toString r ++ "\"")
  | none => w

/-- The opening tag of an element. -/
def walkOpening (x : WalkContext) (id : Nat) (e : Element) (reference : Option Nat) (w : Walk) :
    Walk :=
  (walkAttributes e reference (walkMark reference (walkScope x id (w.html ("<" ++ e.name))))).html ">"

/-- The content of an element and its closing tag. -/
def walkClosing (children : Visitor) (id : Nat) (e : Element) (w : Walk) : Walk :=
  if isVoid e.name then w
  else
    let w := match e.raw with
      | some raw => w.html raw
      | none => children id w
    w.html ("</" ++ e.name ++ ">")

/-- An element is its opening tag, what is inside it and its closing tag. -/
theorem walkElement_eq (x : WalkContext) (children : Visitor) (id : Nat) (w : Walk) {e : Element}
    (he : (x.document.node id).element? = some e) :
    walkElement x children id w = walkClosing children id e
      (if (x.document.node id).params.reference || e.attributes.any Attribute.needsReference then
        walkOpening x id e (some w.allocate.1) w.allocate.2
      else walkOpening x id e none w) := by
  by_cases hneeded : ((x.document.node id).params.reference ||
      e.attributes.any Attribute.needsReference) = true
  · simp only [walkElement, he, if_pos hneeded]
    rfl
  · simp only [walkElement, he, if_neg hneeded]
    rfl

/-- The style of a component is confined by a hash that imitates nothing. -/
def Walk.Hashed (w : Walk) : Prop := ∀ hash ∈ w.component.sheet.2, '-' ∉ hash.toList

/-- A walk with the sheet of a hashed one is hashed. -/
theorem Walk.Hashed.of_sheet {w w' : Walk} (hw : w.Hashed)
    (h : w'.component.sheet = w.component.sheet) : w'.Hashed := by
  unfold Hashed
  rw [h]
  exact hw

/-- A walk that fills markers stays hashed. -/
theorem Walk.Fills.hashed {w w' : Walk} {markers : List Nat} {spots : List Spot}
    (h : w.Fills w' markers spots) (hw : w.Hashed) : w'.Hashed := hw.of_sheet h.sheet

/-- A walk that grows by loose frames stays hashed. -/
theorem Walk.Grows.hashed {w w' : Walk} {loose : List Frame} (h : w.Grows w' loose)
    (hw : w.Hashed) : w'.Hashed := hw.of_sheet h.sheet

/-- A walk that reads on stays hashed. -/
theorem Walk.Reads.hashed {w w' : Walk} {text : List Char} {loose : List Frame}
    (h : w.Reads w' text loose) (hw : w.Hashed) : w'.Hashed := hw.of_sheet h.sheet

/-- A character that is no part of a tag does not occur in its name. -/
theorem isTagPart_ne {name : List Char} (h : ∀ c ∈ name, isTagPart c = true) {d : Char}
    (hd : isTagPart d = false) : d ∉ name := by
  intro hmem
  rw [h d hmem] at hd
  simp at hd

/-- The start of an opening tag. -/
theorem walkName_tags (w : Walk) (reference : Option Nat) {name : String}
    (hname : ∀ c ∈ name.toList, isTagPart c = true) :
    Attaches reference w (w.html ("<" ++ name)) ∧ (w.html ("<" ++ name)).Closable := by
  have hquote : '"' ∉ ("<" ++ name).toList := by
    simpa using isTagPart_ne hname (by decide)
  have hbang : '!' ∉ ("<" ++ name).toList := by
    simpa using isTagPart_ne hname (by decide)
  obtain ⟨hcut, hopen⟩ := w.open_piece ("<" ++ name) (c := '<') (by simp) (.inl rfl)
  exact ⟨w.attaches_html reference hcut (markersIn_of_no_quote hquote hbang),
    not_straddles_tag_end hopen hbang⟩

/-- The digest of the style writes a part of a tag only. -/
theorem walkScope_tags (x : WalkContext) (id : Nat) (reference : Option Nat) {w : Walk}
    (hw : w.Hashed) : Tags reference w (walkScope x id w) := by
  unfold walkScope
  split
  · split
    · next hash hhash =>
        apply w.tags_piece reference (c := ' ') (by simp) (.inr rfl)
        apply plain_of_no_dash
        simpa [Style.scopeAttribute] using hw hash hhash
    · exact .refl reference w
  · exact .refl reference w

/-- The mark of an element fills its marker and leaves the walk closable. -/
theorem walkMark_fills (reference : Option Nat) {w : Walk} (hw : w.Closable) :
    w.Fills (walkMark reference w) reference.toList [] ∧ (walkMark reference w).count = w.count ∧
      (walkMark reference w).Closable := by
  cases reference with
  | none => exact ⟨.refl w, rfl, hw⟩
  | some r =>
      obtain ⟨hcut, hopen⟩ := w.open_piece (" data-ref=\"" ++ toString r ++ "\"") (c := ' ')
        (by simp) (.inr rfl)
      have hfills := w.fills_html hcut
      rw [markersIn_reference] at hfills
      refine ⟨hfills, count_html w _, not_straddles_tag_end hopen ?_⟩
      have hdigits : '!' ∉ Nat.toDigits 10 r := by
        intro hmem
        exact absurd (Nat.isDigit_of_mem_toDigits (by decide) (by decide) hmem) (by decide)
      simpa [Nat.toList_repr] using hdigits

/-- **An opening tag** holds the mark of its element's reference and adds the spots of its element. -/
theorem walkOpening_fills (x : WalkContext) (id : Nat) {e : Element} (reference : Option Nat)
    {w : Walk} (hw : w.Hashed) (hname : ∀ c ∈ e.name.toList, isTagPart c = true)
    (hattributes : ∀ a ∈ e.attributes, Plain a.name.base.toList ∧ Plain a.value.literal) :
    (∃ spots, w.Fills (walkOpening x id e reference w) reference.toList spots ∧
      (∀ s ∈ spots, s.reference = reference) ∧ spotFrames spots = []) ∧
      (walkOpening x id e reference w).count = w.count ∧
      Open (walkOpening x id e reference w).frame.tail [] := by
  obtain ⟨⟨s₁, hfills₁, hall₁, hframes₁, hcount₁⟩, hclosable₁⟩ := walkName_tags w reference hname
  have hscope := walkScope_tags x id reference (hfills₁.hashed hw)
  obtain ⟨s₂, hfills₂, hall₂, hframes₂, hcount₂⟩ := hscope.1
  obtain ⟨hfills₃, hcount₃, hclosable₃⟩ := walkMark_fills reference (hscope.2 hclosable₁)
  have htags := walkAttributes_tags e reference
    (walkMark reference (walkScope x id (w.html ("<" ++ e.name)))) hattributes
  obtain ⟨s₄, hfills₄, hall₄, hframes₄, hcount₄⟩ := htags.1
  have hcut : ¬ Straddles _ (">" : String).toList := htags.2 hclosable₃
  have hfills₅ := fills_html _ hcut
  have hnone : markersIn (">" : String).toList = [] := markersIn_of_no_start (by decide) (by decide)
  rw [hnone] at hfills₅
  refine ⟨⟨s₁ ++ (s₂ ++ s₄), ?_, ?_, ?_⟩, ?_, ?_⟩
  · have hfills := hfills₁.trans (hfills₂.trans (hfills₃.trans (hfills₄.trans hfills₅)))
    simpa [walkOpening] using hfills
  · intro s hs
    simp only [List.mem_append] at hs
    rcases hs with hs | hs | hs
    · exact hall₁ s hs
    · exact hall₂ s hs
    · exact hall₄ s hs
  · simp [spotFrames_append, hframes₁, hframes₂, hframes₄]
  · rw [walkOpening, count_html, hcount₄, hcount₃, hcount₂, hcount₁]
  · rw [walkOpening, frame_html, Frame.tail_pushHtml _ _ hcut]
    apply open_nil
    rw [List.getLast?_append]
    simp

/-- The opening tag of an element that has no reference or has just been given one. -/
theorem walkOpening_breaks (x : WalkContext) (id : Nat) {e : Element} {w : Walk} (hw : w.Hashed)
    (hname : ∀ c ∈ e.name.toList, isTagPart c = true)
    (hattributes : ∀ a ∈ e.attributes, Plain a.name.base.toList ∧ Plain a.value.literal)
    (needed : Bool) :
    w.Breaks (if needed then walkOpening x id e (some w.allocate.1) w.allocate.2
      else walkOpening x id e none w) := by
  cases needed with
  | false =>
      obtain ⟨⟨spots, hfills, hall, hframes⟩, hcount, hopen⟩ :=
        walkOpening_fills x id none hw hname hattributes
      exact ⟨Attaches.grows ⟨spots, hfills, hall, hframes, hcount⟩, hopen⟩
  | true =>
      have hw' : w.allocate.2.Hashed := hw
      obtain ⟨⟨spots, hfills, hall, hframes⟩, hcount, hopen⟩ :=
        walkOpening_fills x id (some w.allocate.1) hw' hname hattributes
      have hfills' : w.Fills (walkOpening x id e (some w.allocate.1) w.allocate.2) [w.count] spots :=
        ⟨hfills.outer, hfills.sheet, hfills.markers, hfills.spots⟩
      refine ⟨⟨[w.count], spots, hfills', ?_⟩, hopen⟩
      apply Numbered.anchor _ hall
      rw [hframes, if_pos rfl, hcount]
      exact .refl _

/-- **An element.**  If what is inside it only adds to the frame, so does the element. -/
theorem walkElement_breaks (x : WalkContext) (children : Visitor) (id : Nat) {w : Walk} {e : Element}
    (he : (x.document.node id).element? = some e) (hw : w.Hashed)
    (hname : ∀ c ∈ e.name.toList, isTagPart c = true) (hunmarked : (Content.element e).Unmarked)
    {text : List Char} (hplain : Plain text)
    (hchildren : ∀ w : Walk, w.Hashed → w.Reads (children id w) text []) :
    w.Breaks (walkElement x children id w) := by
  have hopening := walkOpening_breaks x id hw hname hunmarked.1
    ((x.document.node id).params.reference || e.attributes.any Attribute.needsReference)
  rw [walkElement_eq x children id w he]
  generalize (if (x.document.node id).params.reference ||
      e.attributes.any Attribute.needsReference then
    walkOpening x id e (some w.allocate.1) w.allocate.2 else walkOpening x id e none w) = w₁
    at hopening ⊢
  unfold walkClosing
  split
  · exact hopening
  · have hclose : ∀ w : Walk, w.Breaks (w.html ("</" ++ e.name ++ ">")) := by
      intro w
      apply w.breaks_html (by simp) (by rw [String.toList_append, List.getLast?_append]; rfl)
      apply markersIn_of_no_quote
      · simpa using isTagPart_ne hname (by decide)
      · simpa using isTagPart_ne hname (by decide)
    cases hraw : e.raw with
    | some raw => exact hopening.around (w₁.reads_html raw) (hunmarked.2 raw hraw) (hclose _)
    | none => exact hopening.around (hchildren w₁ (hopening.1.hashed hw)) hplain (hclose _)

end Stencil
