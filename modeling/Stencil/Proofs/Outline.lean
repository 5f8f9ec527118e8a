import Stencil.Compile
import Stencil.Proofs.Marking

/-!
# What the walk leaves alone

While the markup of a component is walked, its frames, its references, its script and its exports
grow, and warnings are added.  Whatever view of the walk does not show these (`Walk.Blind`) shows the
same before and after: the `outline` of the component (`outline_walkComponent`), which is all the rest
of it, and the errors that were found (`errors_walkComponent`).  So the components of a template that
was only filled have no code yet (`Template.Fresh.addDocument`).
-/

namespace Stencil

open Stencil.Markup Stencil.Render Stencil.Source
open Stencil.Script (Expression Language)

/-- A component without what the walk of its markup adds. -/
def Component.outline (c : Component) : Component :=
  { c with references := 0, base := .empty, nested := [], script := none, exports := [] }

namespace Component

/-- The outline of a component does not see its frames. -/
@[simp] theorem outline_mapFrame (c : Component) (f : Frame → Frame) :
    (c.mapFrame f).outline = c.outline := by
  unfold mapFrame
  split <;> rfl

/-- Ending a frame does not change the outline. -/
@[simp] theorem outline_popFrame (c : Component) : c.popFrame.2.outline = c.outline := by
  unfold popFrame
  split <;> rfl

/-- Scripts do not change the outline. -/
theorem outline_addScript (c : Component) (statements : List String) :
    (c.addScript statements).outline = c.outline := by
  unfold addScript
  split
  · rfl
  · split
    · rfl
    · exact outline_mapFrame c _

end Component

namespace Walk

/-- The outline of the component that is walked. -/
def outline (w : Walk) : Component := w.component.outline

/-- The errors that were found, warnings apart. -/
def errors (w : Walk) : List Diagnostic := w.diagnostics.filter (·.level == .error)

/-- A view of the walk that shows neither what is collected from markup and scripts nor warnings. -/
structure Blind {α : Type} (view : Walk → α) : Prop where
  collected : ∀ (w : Walk) (c : Component) (imports : Imports),
    c.outline = w.component.outline → view { w with component := c, imports } = view w
  warned : ∀ (w : Walk) (p : Component.Problem) (span : Option Span),
    view (w.warn p span) = view w

/-- Outlines ignore what the walk collects. -/
theorem blind_outline : Blind outline := ⟨fun _ _ _ h => h, fun _ _ _ => rfl⟩

/-- So do the errors among the problems. -/
theorem blind_errors : Blind errors where
  collected _ _ _ _ := rfl
  warned w p span := by simp [errors, warn, Diagnostic.warning]

end Walk

namespace Walk.Blind

variable {α : Type} {view : Walk → α}

section Steps

/-- What ignores the frames ignores a change of the frame in work. -/
theorem mapFrame (h : Blind view) (w : Walk) (f : Frame → Frame) :
    view (w.map (·.mapFrame f)) = view w :=
  h.collected w _ _ (w.component.outline_mapFrame f)

/-- Markup is ignored. -/
theorem html (h : Blind view) (w : Walk) (text : String) : view (w.html text) = view w :=
  h.mapFrame w _

/-- Constants are ignored. -/
theorem constant (h : Blind view) (w : Walk) (code : String) (raw : Bool) :
    view (w.constant code raw) = view w :=
  h.mapFrame w _

/-- Spots are ignored. -/
theorem spot (h : Blind view) (w : Walk) (reference : Option Nat) (kind : SpotKind) :
    view (w.spot reference kind) = view w :=
  h.mapFrame w _

/-- Numbers that are given out are ignored. -/
theorem allocate (h : Blind view) (w : Walk) : view w.allocate.2 = view w :=
  h.collected w _ _ rfl

/-- Anchors are ignored. -/
theorem anchor (h : Blind view) (w : Walk) : view w.anchor.2 = view w :=
  (h.html w.allocate.2 _).trans (h.allocate w)

/-- The begin of a frame is ignored. -/
theorem pushFrame (h : Blind view) (w : Walk) : view (w.map (·.pushFrame)) = view w :=
  h.collected w _ _ rfl

/-- So is what is collected in a frame of its own. -/
theorem collect (h : Blind view) (w : Walk) {steps : Walk → Walk}
    (hsteps : ∀ w, view (steps w) = view w) : view (w.collect steps).2 = view w := by
  have hpop := h.collected (steps (w.map (·.pushFrame))) _
    (steps (w.map (·.pushFrame))).imports (Component.outline_popFrame _)
  exact (hpop.trans (hsteps _)).trans (h.pushFrame w)

end Steps

section Attributes

/-- Values are ignored. -/
theorem walkValue (h : Blind view) (w : Walk) (parts : List Part) :
    view (walkValue w parts) = view w := by
  fun_induction Stencil.walkValue w parts with
  | case1 w => rfl
  | case2 w text rest ih => rw [ih, h.html]
  | case3 w e html rest ih => rw [ih, h.constant]

/-- Attributes without expressions are ignored. -/
theorem walkStatic (h : Blind view) (w : Walk) (a : Attribute) :
    view (walkStatic w a) = view w := by
  unfold Stencil.walkStatic
  split <;> simp [h.html, h.walkValue]

/-- Modifiers are ignored, since what is wrong with them is no error. -/
theorem walkModifiers (h : Blind view) (w : Walk) (span : Option Span) (names : List String) :
    view (walkModifiers w span names).2 = view w := by
  fun_induction Stencil.walkModifiers w span names with
  | case1 w => rfl
  | case2 w name rest bit hbit bits w' hrest ih => rw [← ih, hrest]
  | case3 w name rest hbit ih => rw [ih, h.warned]

/-- Attributes are ignored, one by one. -/
theorem walkAttribute (h : Blind view) (e : Element) (reference : Option Nat) (c : Combined)
    (w : Walk) (a : Attribute) : view (walkAttribute e reference c w a).2 = view w := by
  unfold Stencil.walkAttribute
  split
  · unfold walkPlain
    repeat' split
    all_goals simp [h.spot, h.walkStatic]
  · unfold walkModifier
    repeat' split
    all_goals simp [h.warned]
  · split
    · exact h.warned w _ _
    · simp only [h.spot, h.walkModifiers]
  · split <;> simp [h.spot, h.warned]
  · split <;> simp [h.spot, h.warned]
  · exact h.spot w _ _

end Attributes

end Walk.Blind

/-- The spots of what was collected from the attributes of an element. -/
def walkCombined (reference : Option Nat) (c : Combined) (w : Walk) : Walk :=
  let w := if c.classValue.isEmpty && c.toggles.isEmpty then w
    else w.spot reference (.classes c.classValue c.toggles)
  if c.styleValue.isEmpty && c.properties.isEmpty then w
  else w.spot reference (.styles c.styleValue c.properties)

/-- Attributes are handled one after another, and what they combine to comes last. -/
theorem walkAttributes_eq (e : Element) (reference : Option Nat) (w : Walk) :
    walkAttributes e reference w =
      let s := e.attributes.foldl (fun s a => walkAttribute e reference s.1 s.2 a) ({}, w)
      walkCombined reference s.1 s.2 := rfl

namespace Walk.Blind

variable {α : Type} {view : Walk → α}

/-- All attributes of an element are ignored. -/
theorem walkAttributes (h : Blind view) (e : Element) (reference : Option Nat) (w : Walk) :
    view (walkAttributes e reference w) = view w := by
  have hfold : ∀ (as : List Attribute) (s : Combined × Walk),
      view (as.foldl (fun s a => Stencil.walkAttribute e reference s.1 s.2 a) s).2 = view s.2 := by
    intro as
    induction as with
    | nil => intro s; rfl
    | cons a as ih =>
        intro s
        rw [List.foldl_cons, ih, h.walkAttribute]
  rw [walkAttributes_eq]
  unfold walkCombined
  dsimp only
  repeat' split
  all_goals simp [hfold, h.spot]

section Nodes

/-- The parts of a text are ignored. -/
theorem walkParts (h : Blind view) (w : Walk) (parts : List Part) :
    view (walkParts w parts) = view w := by
  induction parts generalizing w with
  | nil => rfl
  | cons part rest ih =>
      cases part with
      | literal text => simp [Stencil.walkParts, ih, h.html]
      | expression e html =>
          simp only [Stencil.walkParts]
          split <;> simp [ih, h.constant, h.spot, h.anchor]

/-- Texts are ignored. -/
theorem walkText (h : Blind view) (w : Walk) (t : TextContent) : view (walkText w t) = view w := by
  cases t <;> simp [Stencil.walkText, h.html, h.walkParts]

/-- Scripts are ignored. -/
theorem walkScript (h : Blind view) (x : WalkContext) (n : Node) (w : Walk) :
    view (walkScript x n w) = view w := by
  unfold Stencil.walkScript
  repeat' split
  · rfl
  · exact h.collected w _ _ (Component.outline_addScript _ _)
  · rfl

variable {children : Visitor}

/-- Branches are ignored if their children are. -/
theorem walkBranches (h : Blind view) (d : Document)
    (hchildren : ∀ id w, view (children id w) = view w) (ids : List Nat) (w : Walk) :
    view (walkBranches d children ids w).2 = view w := by
  induction ids generalizing w with
  | nil => rfl
  | cons id rest ih => exact (ih _).trans (h.collect w (hchildren id))

/-- A chain of conditions is ignored if its children are. -/
theorem walkChain (h : Blind view) (d : Document)
    (hchildren : ∀ id w, view (children id w) = view w) (ids : List Nat) (w : Walk) :
    view (walkChain d children ids w) = view w := by
  simp only [Stencil.walkChain, h.spot, h.walkBranches d hchildren, h.anchor]

/-- The opening tag of an element is ignored. -/
theorem walkOpening (h : Blind view) (x : WalkContext) (id : Nat) (e : Element)
    (reference : Option Nat) (w : Walk) : view (walkOpening x id e reference w) = view w := by
  have hscope : ∀ w : Walk, view (walkScope x id w) = view w := by
    intro w
    unfold walkScope
    repeat' split
    all_goals simp [h.html]
  have hmark : ∀ w : Walk, view (walkMark reference w) = view w := by
    intro w
    unfold walkMark
    split <;> simp [h.html]
  simp only [Stencil.walkOpening, h.html, h.walkAttributes, hmark, hscope]

/-- An element is ignored if its children are. -/
theorem walkElement (h : Blind view) (x : WalkContext)
    (hchildren : ∀ id w, view (children id w) = view w) (id : Nat) (w : Walk) :
    view (walkElement x children id w) = view w := by
  cases he : (x.document.node id).element? with
  | none => simp only [Stencil.walkElement, he]
  | some e =>
      have hclosing : ∀ w : Walk, view (walkClosing children id e w) = view w := by
        intro w
        unfold walkClosing
        split
        · rfl
        · cases e.raw <;> simp [h.html, hchildren]
      rw [walkElement_eq x children id w he, hclosing]
      split <;> simp only [h.walkOpening, h.allocate]

/-- A loop is ignored if its children are. -/
theorem walkLoop (h : Blind view) (d : Document)
    (hchildren : ∀ id w, view (children id w) = view w) (id : Nat) (w : Walk) :
    view (walkLoop d children id w) = view w := by
  unfold Stencil.walkLoop
  split
  · simp only [h.spot, h.collect _ (hchildren id), h.anchor]
  · rfl

/-- A slot is ignored if its children are. -/
theorem walkSlot (h : Blind view) (d : Document)
    (hchildren : ∀ id w, view (children id w) = view w) (id : Nat) (w : Walk) :
    view (walkSlot d children id w) = view w := by
  simp only [Stencil.walkSlot, h.spot, h.collect _ (hchildren id), h.anchor]

/-- The properties of a call are ignored. -/
theorem walkProperties (h : Blind view) (component : String) (reference : Nat)
    (as : List Attribute) (w : Walk) :
    view (walkProperties component reference as w).2 = view w := by
  induction as generalizing w with
  | nil => rfl
  | cons a rest ih =>
      unfold Stencil.walkProperties
      split <;> simp [ih, h.spot, h.warned]

variable {self : Visitor}

/-- The contents of a call are ignored if its children are. -/
theorem walkContents (h : Blind view) (d : Document) (hself : ∀ id w, view (self id w) = view w)
    (hchildren : ∀ id w, view (children id w) = view w) (ids : List Nat) (w : Walk) :
    view (walkContents d self children ids w).2 = view w := by
  induction ids generalizing w with
  | nil => rfl
  | cons id rest ih =>
      by_cases hcontent : ((d.node id).type == .block .content) = true
      · simp only [Stencil.walkContents, if_pos hcontent]
        exact (ih _).trans (h.collect w (hchildren id))
      · simp only [Stencil.walkContents, if_neg hcontent]
        exact (ih _).trans (hself id w)

/-- An invocation is ignored if its contents are. -/
theorem walkInvocation (h : Blind view) (d : Document)
    (hself : ∀ id w, view (self id w) = view w)
    (hchildren : ∀ id w, view (children id w) = view w) (id : Nat) (w : Walk) :
    view (walkInvocation d self children id w) = view w := by
  unfold Stencil.walkInvocation
  split
  · rfl
  · next e he =>
      simp only [h.spot]
      refine (h.collected _ _ _ (Component.outline_popFrame _)).trans ?_
      refine (h.walkContents d hself hchildren _ _).trans ?_
      refine (h.pushFrame _).trans ?_
      exact (h.walkProperties e.name _ e.attributes _).trans (h.anchor w)

mutual

/-- What ignores the walk's collections ignores the walk through a node. -/
theorem walkNode (h : Blind view) (x : WalkContext) (steps id : Nat) (w : Walk) :
    view (walkNode x steps id w) = view w := by
  match steps with
  | 0 => rfl
  | steps + 1 =>
      have hself := h.walkNode x steps
      have hchildren := h.walkChildren x steps
      simp only [Stencil.walkNode]
      repeat' split
      all_goals simp [hchildren, h.html, h.warned, h.walkElement, h.walkText, h.walkScript,
        h.walkChain, h.walkLoop, h.walkSlot, h.walkInvocation _ hself hchildren]

/-- It ignores the walk through all children. -/
theorem walkChildren (h : Blind view) (x : WalkContext) (steps id : Nat) (w : Walk) :
    view (walkChildren x steps id w) = view w := by
  match steps with
  | 0 => rfl
  | steps + 1 =>
      have hself := h.walkNode x steps
      have hchildren := h.walkChildren x steps
      simp only [Stencil.walkChildren]
      generalize groups x.document (x.document.children id) = gs
      induction gs generalizing w with
      | nil => rfl
      | cons g gs ih =>
          rw [List.foldl_cons, ih]
          cases g with
          | single child => exact hself child w
          | chain ids => exact h.walkChain x.document hchildren ids w

end

/-- **The whole walk.**  Such a view shows nothing of the walk of a component. -/
theorem walkComponent (h : Blind view) (x : WalkContext) (w : Walk) :
    view (walkComponent x w) = view w := by
  unfold Stencil.walkComponent
  dsimp only
  split
  · rw [h.walkChildren, h.html]
  · rw [h.walkElement x (h.walkChildren x _), h.html]

end Nodes

end Walk.Blind

/-- The walk of a whole component keeps its outline. -/
theorem outline_walkComponent (x : WalkContext) (w : Walk) :
    (walkComponent x w).outline = w.outline :=
  Walk.blind_outline.walkComponent x w

/-- The walk of a whole component finds no errors. -/
theorem errors_walkComponent (x : WalkContext) (w : Walk) :
    (walkComponent x w).errors = w.errors :=
  Walk.blind_errors.walkComponent x w

/-- The walk does not generate code. -/
theorem generated_walkComponent (x : WalkContext) (w : Walk) :
    (walkComponent x w).component.generated = w.component.generated := by
  have houtline := congrArg Component.generated (outline_walkComponent x w)
  simpa only [Walk.outline, Component.outline] using houtline

namespace Template

/-- A template with the given options from which nothing was generated yet, nor from one of its
components. -/
structure Fresh (o : Options) (t : Template) : Prop where
  options : t.options = o
  output : t.output = none
  generated : ∀ c ∈ t.components, c.generated = none

/-- Registering a style changes nothing of a template but its styles. -/
theorem exists_styles_withStyleHash (lang : Language) (t : Template) (c : Component) :
    ∃ styles, (t.withStyleHash lang c).2 = { t with styles } := by
  have hregister : ∀ css, ∃ styles,
      (t.registerStyle (Style.contentHash lang.hash) css).2 = { t with styles } := by
    intro css
    simp only [registerStyle]
    split
    · exact ⟨_, rfl⟩
    · exact ⟨t.styles, rfl⟩
  by_cases hempty : c.styleText.isEmpty = true
  · simp only [withStyleHash, if_pos hempty]
    exact ⟨t.styles, rfl⟩
  · simp only [withStyleHash, if_neg hempty]
    exact hregister _

/-- A component that is analysed has no code yet. -/
theorem generated_analyzed (lang : Language) (t : Template) (d : Document) (root : Nat) (name : String)
    (isDefault : Bool) : (t.analyzed lang d root name isDefault).generated = none := by
  simp only [analyzed, withStyleHash]
  split <;> rfl

variable {o : Options} {t : Template}

/-- A fresh template stays fresh when a component is added. -/
theorem Fresh.addComponent (h : t.Fresh o) (lang : Language) (d : Document) (root : Nat)
    (name : String) (isDefault : Bool) : (t.addComponent lang d root name isDefault).1.Fresh o := by
  obtain ⟨styles, hstyles⟩ := t.exists_styles_withStyleHash lang
    (({ name, root, isDefault } : Component).analyze d t.options.target)
  refine ⟨?_, ?_, ?_⟩
  · simp only [Template.addComponent, hstyles]
    exact h.options
  · simp only [Template.addComponent, hstyles]
    exact h.output
  · intro c hc
    obtain ⟨o', imports, hcomponents⟩ := components_addComponent lang t d root name isDefault
    rw [hcomponents, List.mem_append, List.mem_singleton] at hc
    rcases hc with hc | rfl
    · exact h.generated c hc
    · rw [generated_walkComponent]
      exact t.generated_analyzed lang d root name isDefault

/-- It stays fresh when a fragment is added. -/
theorem Fresh.addFragment {found : List Diagnostic} (h : t.Fresh o) (lang : Language) (d : Document)
    (id : Nat) : (Template.addFragment lang d (t, found) id).1.Fresh o := by
  unfold Template.addFragment
  dsimp only
  repeat' split
  · exact h
  · dsimp only
    exact h.addComponent lang d id _ false
  · exact h

/-- Filling a template generates nothing. -/
theorem Fresh.addDocument (h : t.Fresh o) (lang : Language) (d : Document) :
    (t.addDocument lang d).1.Fresh o := by
  unfold Template.addDocument
  refine List.foldlRecOn (motive := fun s : Template × List Diagnostic => s.1.Fresh o) d.walk _
    (h.addComponent lang d 0 t.options.name true) ?_
  rintro ⟨t', found⟩ ht' id -
  exact ht'.addFragment lang d id

end Template

end Stencil
