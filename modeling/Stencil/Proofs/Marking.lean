import Stencil.Proofs.References
import Stencil.Template

/-!
# Every reference is marked once

The references of a component are found again by the marks in its static markup.  `Component.Marked`
says what is needed for this: every reference that was given out is marked exactly once, in the frame
of the spots that use it, and marks and spots of a frame come in the order of their references.
`addComponent_marked` proves it for every component of a template that imitates no marks.
-/

namespace Stencil

open Stencil.Markup Stencil.Render Stencil.Text Walk
open Stencil.Script (Language)

/-- The references of a component can be found in its markup. -/
structure Component.Marked (c : Component) : Prop where
  /-- Each reference is marked once in the component's frame and those inside it, and nothing else
  is marked. -/
  once : ∀ n, markCount c.base.frames n = if n < c.references then 1 else 0
  /-- In each frame, marks and spots are in order, and the node of a spot is marked in its frame. -/
  sound : ∀ f ∈ c.base.frames, f.Sound
  /-- No frame is still being filled. -/
  ended : c.nested = []

/-- Hashes are written without dashes. -/
theorem Style.dash_not_mem_base36 (n : Nat) : '-' ∉ Style.base36 n := by
  have hdigit : ∀ k < 36, Style.digit36 k ≠ '-' := by decide
  induction n using Style.base36.induct with
  | case1 n hn =>
      rw [Style.base36, if_pos hn, List.mem_singleton]
      exact (hdigit n hn).symm
  | case2 n hn ih =>
      rw [Style.base36, if_neg hn, List.mem_append, List.mem_singleton]
      rintro (hmem | heq)
      · exact ih hmem
      · exact hdigit (n % 36) (Nat.mod_lt n (by decide)) heq.symm

namespace Template

/-- The component with the given root, before its markup is walked. -/
def analyzed (lang : Language) (t : Template) (d : Document) (root : Nat) (name : String)
    (isDefault : Bool) :
    Component :=
  (t.withStyleHash lang (({ name, root, isDefault } : Component).analyze d t.options.target)).1

theorem dash_not_mem_registerStyle (hash : String → UInt64) (t : Template) (css : String) :
    '-' ∉ (t.registerStyle (Style.contentHash hash) css).1.1.toList := by
  have hshort : ∀ length, '-' ∉ (shortHash (Style.contentHash hash css) length).toList := by
    intro length hmem
    simp only [shortHash, Style.contentHash, String.toList_ofList] at hmem
    exact Style.dash_not_mem_base36 _ (List.mem_of_mem_take hmem)
  simp only [registerStyle]
  split
  · exact hshort _
  · exact hshort _

/-- Registering its style changes nothing of a component but its hashes. -/
theorem withStyleHash_eq (lang : Language) (t : Template) (c : Component) (hc : c.styleHash = none) :
    (t.withStyleHash lang c).1.base = c.base ∧ (t.withStyleHash lang c).1.nested = c.nested ∧
      (t.withStyleHash lang c).1.references = c.references ∧
      ∀ hash ∈ (t.withStyleHash lang c).1.styleHash, '-' ∉ hash.toList := by
  by_cases hempty : c.styleText.isEmpty = true
  · simp only [withStyleHash, if_pos hempty]
    exact ⟨trivial, trivial, trivial, by simp [hc]⟩
  · simp only [withStyleHash, if_neg hempty]
    refine ⟨trivial, trivial, trivial, ?_⟩
    intro hash hhash
    rw [← Option.some.inj hhash]
    exact t.dash_not_mem_registerStyle lang.hash _

theorem components_withStyleHash (lang : Language) (t : Template) (c : Component) :
    (t.withStyleHash lang c).2.components = t.components := by
  have hregister : ∀ css,
      (t.registerStyle (Style.contentHash lang.hash) css).2.components = t.components := by
    intro css
    simp only [registerStyle]
    split <;> rfl
  by_cases hempty : c.styleText.isEmpty = true
  · simp only [withStyleHash, if_pos hempty]
  · simp only [withStyleHash, if_neg hempty]
    exact hregister _

/-- A component starts without markup and references. -/
theorem analyzed_eq (lang : Language) (t : Template) (d : Document) (root : Nat) (name : String)
    (isDefault : Bool) :
    (t.analyzed lang d root name isDefault).base = .empty ∧
      (t.analyzed lang d root name isDefault).nested = [] ∧
      (t.analyzed lang d root name isDefault).references = 0 ∧
      ∀ hash ∈ (t.analyzed lang d root name isDefault).styleHash, '-' ∉ hash.toList := by
  unfold analyzed
  exact t.withStyleHash_eq lang (({ name, root, isDefault } : Component).analyze d t.options.target) rfl

/-- Adding a component walks its markup and leaves the others alone. -/
theorem components_addComponent (lang : Language) (t : Template) (d : Document) (root : Nat)
    (name : String) (isDefault : Bool) :
    ∃ (o : Options) (imports : Imports),
      (t.addComponent lang d root name isDefault).1.components = t.components ++
        [(walkComponent ⟨lang, o, d⟩
          { component := t.analyzed lang d root name isDefault, imports := imports }).component] := by
  simp only [addComponent, analyzed, components_withStyleHash]
  exact ⟨_, _, rfl⟩

end Template

/-- The style of a component at the start of its markup. -/
theorem injectedStyle_breaks (o : Options) {c : Component}
    (hc : ∀ hash ∈ c.styleHash, '-' ∉ hash.toList) (hstyle : Plain c.scopedStyle.toList)
    {w : Walk} (hw : Open w.frame.tail []) : w.Breaks (w.html (injectedStyle o c)) := by
  have hnothing : w.Breaks (w.html "") := by
    have hcut : ¬ Straddles w.frame.tail ("" : String).toList := not_straddles_of_head (by simp)
    refine ⟨(w.attaches_html none hcut rfl).grows, ?_⟩
    rw [frame_html, Frame.tail_pushHtml _ _ hcut]
    simpa using hw
  unfold injectedStyle
  split
  · next hash _ hhash =>
      dsimp only
      split
      · exact hnothing
      · have hplain : Plain (("<style " ++ Style.scopeAttribute ++ "=\"" ++ hash ++ "\"").toList ++
            '>' :: c.scopedStyle.toList) := by
          refine Plain.separate (plain_of_no_dash ?_) hstyle (by decide)
          simpa [Style.scopeAttribute] using hc hash hhash
        have hclosing : markersIn ("</style>" : String).toList = [] :=
          markersIn_of_no_quote (by decide) (by decide)
        have hmarkers := markersIn_append (not_straddles_of_head
          (a := ("<style " ++ Style.scopeAttribute ++ "=\"" ++ hash ++ "\"").toList ++
            '>' :: c.scopedStyle.toList) (b := ("</style>" : String).toList) (by simp))
        rw [markersIn_of_plain hplain, hclosing] at hmarkers
        apply w.breaks_html (by simp) (by rw [String.toList_append, List.getLast?_append]; rfl)
        simpa using hmarkers
  · exact hnothing

/-- **The whole markup of a component**, after its style. -/
theorem walkComponent_reads (x : WalkContext) (hwf : x.document.WellFormed)
    (hunmarked : x.document.Unmarked) {w : Walk} (hw : w.Hashed) :
    ∃ text, Plain text ∧
      (w.html (injectedStyle x.options w.component)).Reads (walkComponent x w) text [] := by
  have hhashed : (w.html (injectedStyle x.options w.component)).Hashed :=
    hw.of_sheet (Component.sheet_mapFrame _ _)
  have hchildren : ∀ id, ∀ w : Walk, w.Hashed →
      w.Reads (walkChildren x (2 * x.document.size + 2) id w) (x.document.childText id) [] := by
    intro id
    exact (walk_reads x hwf hunmarked _).2 id (by omega)
  unfold walkComponent
  dsimp only
  generalize w.html (injectedStyle x.options w.component) = w₁ at hhashed ⊢
  generalize w₁.component.root = root
  split
  · exact ⟨_, hunmarked.plain_childText root, hchildren root w₁ hhashed⟩
  · cases he : (x.document.node root).element? with
    | none =>
        simp only [walkElement, he]
        exact ⟨[], by decide, .refl w₁⟩
    | some e =>
        have hroot : root < x.document.size := by
          by_contra hout
          rw [Document.node_of_size_le (Nat.not_lt.mp hout)] at he
          simp [Node.element?, Node.document] at he
        have hcontent : (Content.element e).Unmarked :=
          Node.content_of_element? he ▸ (hunmarked root hroot).1
        have hname : ∀ c ∈ e.name.toList, isTagPart c = true :=
          hwf.named root e.name (by simp [Node.tag?, he])
        have helement := walkElement_breaks x (walkChildren x (2 * x.document.size + 2)) root he
          hhashed hname hcontent (hunmarked.plain_childText root) (hchildren root)
        exact ⟨[], by decide, helement.reads []⟩

theorem Component.scopedStyle_of_sheet {c c' : Component} (h : c'.sheet = c.sheet) :
    c'.scopedStyle = c.scopedStyle := by
  obtain ⟨hstyle, hhash⟩ := Prod.mk.inj h
  rw [scopedStyle, scopedStyle, hstyle, hhash]

/-- What was added to an empty component is marked. -/
theorem Walk.Grows.marked {w w' : Walk} (h : w.Grows w' []) (hbase : w.component.base = .empty)
    (hnested : w.component.nested = []) (hcount : w.count = 0) : w'.component.Marked := by
  obtain ⟨markers, spots, hfills, hnumbered⟩ := h
  have hended : w'.component.nested = [] := by
    have houter := hfills.outer
    simp only [Component.stack, hnested, hbase] at houter
    cases hn : w'.component.nested with
    | nil => rfl
    | cons inner outer => simp [hn] at houter
  have hempty : w.frame = .empty := by simp [Walk.frame, Component.frame, hnested, hbase]
  have hframe : w'.frame = w'.component.base := by simp [Walk.frame, Component.frame, hended]
  have hmarkers : w'.component.base.markers = markers := by
    rw [← hframe, hfills.markers, hempty]
    rfl
  have hspots : w'.component.base.spots = spots := by
    rw [← hframe, hfills.spots, hempty]
    rfl
  rw [← hmarkers, ← hspots, hcount] at hnumbered
  have hclosed := hnumbered.close
  rw [List.append_nil] at hclosed
  refine ⟨?_, ?_, hended⟩
  · intro n
    have honce := hclosed.once n
    simpa [spotFrames, Walk.count] using honce
  · intro f hf
    exact hclosed.sound f (by simpa [spotFrames] using hf)

/-- A component that is walked from the start is marked, unless its style imitates a mark. -/
theorem walkComponent_marked (x : WalkContext) (hwf : x.document.WellFormed)
    (hunmarked : x.document.Unmarked) {w : Walk} (hbase : w.component.base = .empty)
    (hnested : w.component.nested = []) (hcount : w.count = 0) (hw : w.Hashed)
    (hstyle : Plain (walkComponent x w).component.scopedStyle.toList) :
    (walkComponent x w).component.Marked := by
  obtain ⟨text, hplain, hreads⟩ := walkComponent_reads x hwf hunmarked hw
  have hsheet := hreads.sheet.trans (Component.sheet_mapFrame _ _)
  rw [Component.scopedStyle_of_sheet hsheet] at hstyle
  have hopen : Open w.frame.tail [] := by
    rw [Walk.frame, Component.frame, hnested, List.headD_nil, hbase, Frame.tail_empty]
    exact open_nil (by simp)
  have hstart := injectedStyle_breaks x.options hw hstyle hopen
  have hgrows := hstart.1.trans (hreads.joins [] hstart.2 hplain).1
  exact hgrows.marked hbase hnested hcount

/-- **Every reference is marked once.**  The component that is added for a root of a template that
imitates no marks can find all its references, unless its style imitates one; whatever the root and
whatever it is added to. -/
theorem addComponent_marked (lang : Language) (o : Options) (source : String)
    (hunmarked : (parseTemplate lang o source).document.Unmarked) (t : Template) (root : Nat)
    (name : String) (isDefault : Bool) :
    ∃ c : Component,
      (t.addComponent lang (parseTemplate lang o source).document root name isDefault).1.components =
        t.components ++ [c] ∧
      (Plain c.scopedStyle.toList → c.Marked) := by
  have hwf := parseTemplate_wellFormed lang o source
  generalize (parseTemplate lang o source).document = d at hunmarked hwf ⊢
  obtain ⟨hbase, hnested, hcount, hhash⟩ := t.analyzed_eq lang d root name isDefault
  obtain ⟨options, imports, hcomponents⟩ := t.components_addComponent lang d root name isDefault
  refine ⟨_, hcomponents, fun hstyle => ?_⟩
  exact walkComponent_marked _ hwf hunmarked hbase hnested hcount hhash hstyle

/-- An invocation with a text and a slot in its content. -/
def cardTemplate : String := "<Card>\x7bb\x7d<slot>c</slot></Card>"

/-- Three references, the first marked in the frame of the component and the others inside it. -/
theorem addComponent_marked_card :
    ∃ c : Component,
      (Template.addComponent Script.javaScript { options := {} }
        (parseTemplate Script.javaScript {} cardTemplate).document 0 "Component" true).1.components =
          [c] ∧
      c.references = 3 ∧ c.Marked := by
  obtain ⟨c, hcomponents, hmarked⟩ := addComponent_marked Script.javaScript {} cardTemplate
    (by decide +kernel) { options := {} } 0 "Component" true
  have hvalues : (Template.addComponent Script.javaScript { options := {} }
      (parseTemplate Script.javaScript {} cardTemplate).document 0 "Component"
      true).1.components.map (fun c => (c.references, c.scopedStyle)) = [(3, "")] := by
    decide +kernel
  rw [hcomponents] at hvalues
  obtain ⟨hreferences, hstyle⟩ := Prod.mk.inj (List.cons.inj hvalues).1
  exact ⟨c, hcomponents, hreferences, hmarked (by rw [hstyle]; decide)⟩

/-- Whether the literal texts of a node are plain, each looked at by itself. -/
def Markup.Content.hasPlainTexts : Content → Bool
  | .text (.raw t) => decide (Plain t.toList)
  | .text (.parts ps) => ps.all fun p =>
      match p with
      | .literal t => decide (Plain t.toList)
      | .expression _ _ => true
  | _ => true

/-- A template in which a style, which prints nothing, stands between the two halves of a mark. -/
def splitMark : Passes.Outcome := parseTemplate Script.javaScript {} "<<style></style>!--ref:0-->"

/-- Looking at every text by itself is not enough. -/
theorem not_marked_of_splitMark :
    splitMark.error = none ∧
    (∀ id < splitMark.document.size, (splitMark.document.node id).content.Unmarked ∧
      (splitMark.document.node id).content.hasPlainTexts = true) ∧
    ∃ c : Component,
      (Template.addComponent Script.javaScript { options := {} } splitMark.document 0 "Component"
        true).1.components = [c] ∧
      Plain c.scopedStyle.toList ∧ ¬ c.Marked := by
  refine ⟨by decide +kernel, by decide +kernel, ?_⟩
  obtain ⟨o, imports, hcomponents⟩ := Template.components_addComponent Script.javaScript
    { options := {} } splitMark.document 0 "Component" true
  have hvalues : (Template.addComponent Script.javaScript { options := {} } splitMark.document 0
      "Component" true).1.components.map
        (fun c => (c.references, markCount c.base.frames 0, c.scopedStyle)) = [(0, 1, "")] := by
    decide +kernel
  rw [hcomponents] at hvalues
  obtain ⟨hreferences, hrest⟩ := Prod.mk.inj (List.cons.inj hvalues).1
  obtain ⟨hmarks, hstyle⟩ := Prod.mk.inj hrest
  refine ⟨_, hcomponents, by rw [hstyle]; decide, fun hmarked => ?_⟩
  have honce := hmarked.once 0
  rw [hmarks, hreferences] at honce
  exact absurd honce (by decide)

end Stencil
