import Stencil.Proofs.Attached
import Stencil.Proofs.Bare
import Stencil.Proofs.Outline

/-!
# Two walks side by side

A document is walked, and once more without its positions and possibly for another target.  Both
walks leave the same imprint: the same markup with the same references.  If the scripts that run are
the same, both walks come to the same component altogether.  `Walk.Twins` says so of two walks that
have come equally far, and `walkComponent_twins` that they stay twins to the end.
-/

namespace Stencil

open Stencil.Markup Stencil.Render Stencil.Source
open Stencil.Script (Expression Language)

/-- The frame as a single block without spots. -/
def Render.Frame.flat (f : Frame) : Frame := .mk [f.markup] [] false

namespace Render.Frame

variable (f : Frame)

/-- Markup is added to a frame as to its only block. -/
theorem flat_pushPiece (p : Piece) : (f.pushPiece p).flat = f.flat.pushPiece p := by
  rw [flat, markup_pushPiece]
  rfl

/-- Markup that is added to a frame is added to its flat form. -/
theorem flat_pushHtml (text : String) : (f.pushHtml text).flat = f.flat.pushHtml text := by
  unfold pushHtml
  split
  · rfl
  · exact flat_pushPiece f _

/-- A spot leaves no trace in the flat form of a frame. -/
theorem flat_pushSpot (reference : Option Nat) (kind : SpotKind) :
    (f.pushSpot reference kind).flat = f.flat := rfl

end Render.Frame

/-- What a component leaves in the markup: all of it but its spots, its scripts and what they say
about names. -/
def Component.imprint (c : Component) : Component :=
  { c with
    base := c.base.flat, nested := c.nested.map Frame.flat, script := none, exports := [],
    declared := [], updated := [] }

namespace Component

variable {c c' : Component}

/-- What is done to the frame in work shows in the imprint as what is done to its flat form. -/
theorem imprint_mapFrame (c : Component) {g g' : Frame → Frame} (h : ∀ f, (g f).flat = g' f.flat) :
    (c.mapFrame g).imprint = c.imprint.mapFrame g' := by
  obtain ⟨name, root, isDefault, references, base, nested⟩ := c
  cases nested with
  | nil => simp [imprint, mapFrame, h]
  | cons inner outer => simp [imprint, mapFrame, h]

/-- Markup that is added shows in the imprint. -/
theorem imprint_pushHtml (c : Component) (text : String) :
    (c.pushHtml text).imprint = c.imprint.pushHtml text :=
  c.imprint_mapFrame fun f => f.flat_pushHtml text

/-- A constant that is added shows in the imprint. -/
theorem imprint_pushConstant (c : Component) (code : String) (raw : Bool) :
    (c.pushConstant code raw).imprint = c.imprint.pushConstant code raw :=
  c.imprint_mapFrame fun f => f.flat_pushPiece (.constant code raw)

/-- Spots leave no imprint. -/
theorem imprint_pushSpot (c : Component) (reference : Option Nat) (kind : SpotKind) :
    (c.pushSpot reference kind).imprint = c.imprint := by
  obtain ⟨name, root, isDefault, references, base, nested⟩ := c
  cases nested with
  | nil => simp [imprint, pushSpot, mapFrame, Frame.flat_pushSpot]
  | cons inner outer => simp [imprint, pushSpot, mapFrame, Frame.flat_pushSpot]

/-- Numbers are given out in the same way in the imprint. -/
theorem imprint_allocate (c : Component) : c.allocate.2.imprint = c.imprint.allocate.2 := rfl

/-- A frame that is begun is begun in the imprint. -/
theorem imprint_pushFrame (c : Component) :
    c.pushFrame.imprint = { c.imprint with nested := Frame.empty.flat :: c.imprint.nested } := rfl

/-- A frame that is ended is ended in the imprint. -/
theorem imprint_popFrame (c : Component) :
    c.popFrame.2.imprint = { c.imprint with nested := c.imprint.nested.tail } := by
  unfold popFrame
  split
  · next hnested => simp [imprint, hnested]
  · next inner outer hnested => simp [imprint, hnested]

/-- Scripts leave no trace in the imprint. -/
theorem imprint_addScript (c : Component) (statements : List String) :
    (c.addScript statements).imprint = c.imprint := by
  unfold addScript
  split
  · rfl
  · split
    · rfl
    · exact imprint_pushSpot c _ _

end Component

/-- Two walks that have come equally far; `same` if they are to agree in scripts and spots, too. -/
structure Walk.Twins (same : Prop) (w w' : Walk) : Prop where
  imprint : w.component.imprint = w'.component.imprint
  component : same → w.component = w'.component
  imports : same → w.imports = w'.imports
  diagnostics : w.diagnostics.map Diagnostic.bare = w'.diagnostics.map Diagnostic.bare

/-- Two ways to walk a node, from twins to twins, for the nodes of a document. -/
def Visitor.Twins (same : Prop) (d : Document) (children children' : Visitor) : Prop :=
  ∀ id ∈ d.walk, ∀ w w' : Walk, w.Twins same w' → (children id w).Twins same (children' id w')

namespace Walk.Twins

variable {same : Prop} {w w' : Walk}

/-- Twins have given out the same numbers. -/
theorem references (h : w.Twins same w') : w.component.references = w'.component.references := by
  simpa only [Component.imprint] using congrArg Component.references h.imprint

/-- Twins have the same root. -/
theorem root (h : w.Twins same w') : w.component.root = w'.component.root := by
  simpa only [Component.imprint] using congrArg Component.root h.imprint

/-- The component is changed in two ways that leave the same imprint. -/
theorem map {f f' : Component → Component} (h : w.Twins same w')
    (himprint : (f w.component).imprint = (f' w'.component).imprint)
    (hsame : same → f = f') : (w.map f).Twins same (w'.map f') :=
  ⟨himprint, fun hs => by rw [Walk.map, Walk.map, hsame hs, h.component hs], h.imports,
    h.diagnostics⟩

/-- Twins stay twins when markup is added to both. -/
theorem html (h : w.Twins same w') (text : String) : (w.html text).Twins same (w'.html text) := by
  refine h.map ?_ fun _ => rfl
  rw [Component.imprint_pushHtml, Component.imprint_pushHtml, h.imprint]

/-- Twins stay twins when a constant is added to both. -/
theorem constant (h : w.Twins same w') (code : String) (raw : Bool) :
    (w.constant code raw).Twins same (w'.constant code raw) := by
  refine h.map ?_ fun _ => rfl
  rw [Component.imprint_pushConstant, Component.imprint_pushConstant, h.imprint]

/-- Twins stay twins when a spot is added to both, of the same kind if they are the same. -/
theorem spot {kind kind' : SpotKind} (h : w.Twins same w') (reference : Option Nat)
    (hkind : same → kind = kind') :
    (w.spot reference kind).Twins same (w'.spot reference kind') := by
  refine h.map ?_ fun hs => by rw [hkind hs]
  rw [Component.imprint_pushSpot, Component.imprint_pushSpot, h.imprint]

/-- Twins stay twins when a problem is reported, wherever it is. -/
theorem warn (h : w.Twins same w') (p : Component.Problem) (span span' : Option Span) :
    (w.warn p span).Twins same (w'.warn p span') := by
  refine ⟨h.imprint, h.component, h.imports, ?_⟩
  simp only [Walk.warn, List.map_append, h.diagnostics]
  rfl

/-- Twins are given the same number, and stay twins. -/
theorem allocate (h : w.Twins same w') :
    w.allocate.1 = w'.allocate.1 ∧ w.allocate.2.Twins same w'.allocate.2 := by
  refine ⟨h.references, ?_, fun hs => ?_, h.imports, h.diagnostics⟩
  · simp only [Walk.allocate, Component.imprint_allocate, h.imprint]
  · simp only [Walk.allocate, h.component hs]

/-- Twins get the same anchor, and stay twins. -/
theorem anchor (h : w.Twins same w') :
    w.anchor.1 = w'.anchor.1 ∧ w.anchor.2.Twins same w'.anchor.2 := by
  obtain ⟨hreference, hwalk⟩ := h.allocate
  refine ⟨hreference, ?_⟩
  simp only [Walk.anchor, hreference]
  exact hwalk.html _

/-- Twins stay twins when both begin a frame. -/
theorem pushFrame (h : w.Twins same w') :
    (w.map (·.pushFrame)).Twins same (w'.map (·.pushFrame)) := by
  refine h.map ?_ fun _ => rfl
  rw [Component.imprint_pushFrame, Component.imprint_pushFrame, h.imprint]

/-- Twins end the same frame if they are the same, and stay twins. -/
theorem popFrame (h : w.Twins same w') :
    (same → w.component.popFrame.1 = w'.component.popFrame.1) ∧
      ({ w with component := w.component.popFrame.2 } : Walk).Twins same
        { w' with component := w'.component.popFrame.2 } := by
  refine ⟨fun hs => by rw [h.component hs], ?_, fun hs => ?_, h.imports, h.diagnostics⟩
  · rw [Component.imprint_popFrame, Component.imprint_popFrame, h.imprint]
  · rw [h.component hs]

/-- What is collected in a frame of its own is the same if the twins are, and they stay twins. -/
theorem collect {steps steps' : Walk → Walk} (h : w.Twins same w')
    (hsteps : ∀ w w' : Walk, w.Twins same w' → (steps w).Twins same (steps' w')) :
    (same → (w.collect steps).1 = (w'.collect steps').1) ∧
      (w.collect steps).2.Twins same (w'.collect steps').2 :=
  (hsteps _ _ h.pushFrame).popFrame

end Walk.Twins

variable {same : Prop} {w w' : Walk}

section Attributes

/-- Values are written by both twins. -/
theorem walkValue_twins (h : w.Twins same w') (parts : List Part) :
    (walkValue w parts).Twins same (walkValue w' parts) := by
  induction parts generalizing w w' with
  | nil => exact h
  | cons part rest ih =>
      cases part with
      | literal text => exact ih (h.html _)
      | expression e html => exact ih (h.constant _ _)

/-- Attributes without expressions are written by both twins. -/
theorem walkStatic_twins (h : w.Twins same w') (a : Attribute) :
    (walkStatic w a).Twins same (walkStatic w' a) := by
  unfold walkStatic
  cases a.value with
  | empty => exact h.html _
  | text text quote => exact h.html _
  | parts parts quote => exact (walkValue_twins (h.html _) parts).html _

/-- Modifiers of an event have the same flags for both twins. -/
theorem walkModifiers_twins (h : w.Twins same w') (span span' : Option Span) (names : List String) :
    (walkModifiers w span names).1 = (walkModifiers w' span' names).1 ∧
      (walkModifiers w span names).2.Twins same (walkModifiers w' span' names).2 := by
  induction names generalizing w w' with
  | nil => exact ⟨rfl, h⟩
  | cons name rest ih =>
      cases hbit : modifierBit? name with
      | some bit =>
          obtain ⟨hbits, hrest⟩ := ih h
          simp only [walkModifiers, hbit, hbits]
          exact ⟨trivial, hrest⟩
      | none =>
          simp only [walkModifiers, hbit]
          exact ih (h.warn _ span span')

/-- Whether an element has a modifier does not depend on positions. -/
theorem hasModifier_bare (e : Element) (base : String) :
    hasModifier e.bare base = hasModifier e base := by
  simp [hasModifier, Function.comp_def]

/-- A plain attribute is handled in the same way without its position. -/
theorem walkPlain_bare (w : Walk) (e : Element) (reference : Option Nat) (c : Combined)
    (a : Attribute) : walkPlain e.bare reference a.bare c w = walkPlain e reference a c w := by
  simp only [walkPlain, hasModifier_bare]
  rfl

/-- Plain attributes are handled alike by twins. -/
theorem walkPlain_twins (h : w.Twins same w') (e : Element) (reference : Option Nat) (c : Combined)
    (a : Attribute) : (walkPlain e reference a c w).1 = (walkPlain e reference a c w').1 ∧
      (walkPlain e reference a c w).2.Twins same (walkPlain e reference a c w').2 := by
  by_cases hclass : (a.name.base == "class" && (a.isDynamic || hasModifier e "class")) = true
  · simp only [walkPlain, if_pos hclass]
    exact ⟨trivial, h⟩
  · by_cases hstyle : (a.name.base == "style" && (a.isDynamic || hasModifier e "style")) = true
    · simp only [walkPlain, if_neg hclass, if_pos hstyle]
      exact ⟨trivial, h⟩
    · by_cases hdynamic : a.isDynamic = true
      · simp only [walkPlain, if_neg hclass, if_neg hstyle, if_pos hdynamic]
        exact ⟨trivial, h.spot reference fun _ => rfl⟩
      · simp only [walkPlain, if_neg hclass, if_neg hstyle, if_neg hdynamic]
        exact ⟨trivial, walkStatic_twins h a⟩

/-- Modifiers are handled alike by twins, with positions or without. -/
theorem walkModifier_twins (h : w.Twins same w') (c : Combined) (a : Attribute) :
    (walkModifier a c w).1 = (walkModifier a.bare c w').1 ∧
      (walkModifier a c w).2.Twins same (walkModifier a.bare c w').2 := by
  cases he : a.expression? with
  | none =>
      have he' : a.bare.expression? = none := he
      simp only [walkModifier, he, he']
      exact ⟨trivial, h.warn _ a.span none⟩
  | some value =>
      have he' : a.bare.expression? = some value := he
      by_cases hclass : (a.name.base == "class") = true
      · have hclass' : (a.bare.name.base == "class") = true := hclass
        simp only [walkModifier, he, he', if_pos hclass, if_pos hclass']
        exact ⟨rfl, h⟩
      · have hclass' : ¬ (a.bare.name.base == "class") = true := hclass
        by_cases hstyle : (a.name.base == "style") = true
        · have hstyle' : (a.bare.name.base == "style") = true := hstyle
          simp only [walkModifier, he, he', if_neg hclass, if_neg hclass', if_pos hstyle,
            if_pos hstyle']
          exact ⟨rfl, h⟩
        · have hstyle' : ¬ (a.bare.name.base == "style") = true := hstyle
          simp only [walkModifier, he, he', if_neg hclass, if_neg hclass', if_neg hstyle,
            if_neg hstyle']
          exact ⟨trivial, h.warn _ a.span none⟩

/-- Attributes are handled alike by twins, with positions or without. -/
theorem walkAttribute_twins (h : w.Twins same w') (e : Element) (reference : Option Nat)
    (c : Combined) (a : Attribute) :
    (walkAttribute e reference c w a).1 = (walkAttribute e.bare reference c w' a.bare).1 ∧
      (walkAttribute e reference c w a).2.Twins same
        (walkAttribute e.bare reference c w' a.bare).2 := by
  simp only [walkAttribute, Attribute.kind_bare, Attribute.expression?_bare]
  cases a.kind with
  | plain =>
      simp only [walkPlain_bare]
      exact walkPlain_twins h e reference c a
  | modifier => exact walkModifier_twins h c a
  | event =>
      cases a.expression? with
      | none => exact ⟨rfl, h.warn _ a.span none⟩
      | some handler =>
          obtain ⟨hbits, hwalk⟩ := walkModifiers_twins h a.span none a.name.modifiers
          refine ⟨rfl, hwalk.spot reference fun _ => ?_⟩
          rw [hbits]
          rfl
  | bind =>
      cases a.expression? with
      | none => exact ⟨rfl, h.warn _ a.span none⟩
      | some target => exact ⟨rfl, h.spot reference fun _ => rfl⟩
  | ref =>
      cases a.expression? with
      | none => exact ⟨rfl, h.warn _ a.span none⟩
      | some target => exact ⟨rfl, h.spot reference fun _ => rfl⟩
  | action => exact ⟨rfl, h.spot reference fun _ => rfl⟩

/-- What attributes combine to is written by both twins. -/
theorem walkCombined_twins (h : w.Twins same w') (reference : Option Nat) (c : Combined) :
    (walkCombined reference c w).Twins same (walkCombined reference c w') := by
  have hclasses : (if c.classValue.isEmpty && c.toggles.isEmpty then w
      else w.spot reference (.classes c.classValue c.toggles)).Twins same
      (if c.classValue.isEmpty && c.toggles.isEmpty then w'
      else w'.spot reference (.classes c.classValue c.toggles)) := by
    split
    · exact h
    · exact h.spot reference fun _ => rfl
  unfold walkCombined
  dsimp only
  split
  · exact hclasses
  · exact hclasses.spot reference fun _ => rfl

/-- All attributes of an element are handled alike by twins, with positions or without. -/
theorem walkAttributes_twins (h : w.Twins same w') (e : Element) (reference : Option Nat) :
    (walkAttributes e reference w).Twins same (walkAttributes e.bare reference w') := by
  have hfold : ∀ (as : List Attribute) (s s' : Combined × Walk),
      s.1 = s'.1 ∧ s.2.Twins same s'.2 →
      let t := as.foldl (fun s a => walkAttribute e reference s.1 s.2 a) s
      let t' := (as.map Attribute.bare).foldl
        (fun s a => walkAttribute e.bare reference s.1 s.2 a) s'
      t.1 = t'.1 ∧ t.2.Twins same t'.2 := by
    intro as
    induction as with
    | nil => exact fun _ _ h => h
    | cons a rest ih =>
        rintro ⟨c, w⟩ ⟨_, w'⟩ ⟨rfl, h⟩
        exact ih _ _ (walkAttribute_twins h e reference c a)
  obtain ⟨hcombined, hwalk⟩ := hfold e.attributes ({}, w) ({}, w') ⟨rfl, h⟩
  rw [walkAttributes_eq, walkAttributes_eq, Element.attributes_bare]
  dsimp only at hcombined hwalk ⊢
  rw [← hcombined]
  exact walkCombined_twins hwalk reference _

end Attributes

/-- Options for two walks of a document.  If the walks are to be the same, so are the scripts that
run. -/
structure Options.Twins (same : Prop) (d : Document) (o o' : Options) : Prop where
  name : o.name = o'.name
  css : o.css = o'.css
  scripts : same → ∀ id ∈ d.walk, (d.node id).type = .script →
    runsOn (d.node id).params.target o.target = runsOn (d.node id).params.target o'.target

/-- Two contexts to walk a document in, of which the second has no positions. -/
structure WalkContext.Twins (same : Prop) (x x' : WalkContext) : Prop where
  lang : x.lang = x'.lang
  options : x.options.Twins same x.document x'.options
  document : x'.document = x.document.bare
  forward : x.document.Forward

section Nodes

/-- Parts of a text are written by both twins. -/
theorem walkParts_twins (h : w.Twins same w') (parts : List Part) :
    (walkParts w parts).Twins same (walkParts w' parts) := by
  induction parts generalizing w w' with
  | nil => exact h
  | cons part rest ih =>
      cases part with
      | literal text => exact ih (h.html _)
      | expression e html =>
          simp only [walkParts]
          split
          · exact ih (h.constant _ _)
          · obtain ⟨hreference, hanchor⟩ := h.anchor
            rw [hreference]
            exact ih (hanchor.spot _ fun _ => rfl)

/-- Texts are written by both twins. -/
theorem walkText_twins (h : w.Twins same w') (t : TextContent) :
    (walkText w t).Twins same (walkText w' t) := by
  cases t with
  | raw text => exact h.html text
  | parts parts => exact walkParts_twins h parts

/-- Scripts leave no imprint. -/
theorem walkScript_twins {x x' : WalkContext} (h : w.Twins same w') (hx : x.Twins same x')
    {id : Nat} (hid : id ∈ x.document.walk) (htype : (x.document.node id).type = .script) :
    (walkScript x (x.document.node id) w).Twins same
      (walkScript x' (x.document.node id).bare w') := by
  have himprint : ∀ (x : WalkContext) (n : Node) (w : Walk),
      (walkScript x n w).component.imprint = w.component.imprint ∧
        (walkScript x n w).diagnostics = w.diagnostics := by
    intro x n w
    unfold walkScript
    split
    · cases n.params.script with
      | none => exact ⟨rfl, rfl⟩
      | some parts => exact ⟨Component.imprint_addScript _ _, rfl⟩
    · exact ⟨rfl, rfl⟩
  -- only here does a walk ask for the target
  have hsame : same → (walkScript x (x.document.node id) w).component =
        (walkScript x' (x.document.node id).bare w').component ∧
      (walkScript x (x.document.node id) w).imports =
        (walkScript x' (x.document.node id).bare w').imports := by
    intro hs
    simp only [walkScript, Node.params_bare, ← hx.options.scripts hs id hid htype, ← hx.lang,
      ← h.component hs, ← h.imports hs]
    split
    · cases (x.document.node id).params.script with
      | none => exact ⟨h.component hs, h.imports hs⟩
      | some parts => exact ⟨rfl, rfl⟩
    · exact ⟨h.component hs, h.imports hs⟩
  refine ⟨?_, fun hs => (hsame hs).1, fun hs => (hsame hs).2, ?_⟩
  · rw [(himprint _ _ _).1, (himprint _ _ _).1, h.imprint]
  · rw [(himprint _ _ _).2, (himprint _ _ _).2, h.diagnostics]

variable {d : Document} {children children' : Visitor}

/-- Branches are walked alike by twins if their children are. -/
theorem walkBranches_twins (h : w.Twins same w')
    (hchildren : Visitor.Twins same d children children') {ids : List Nat}
    (hids : ∀ id ∈ ids, id ∈ d.walk) :
    (same → (walkBranches d children ids w).1 = (walkBranches d.bare children' ids w').1) ∧
      (walkBranches d children ids w).2.Twins same (walkBranches d.bare children' ids w').2 := by
  induction ids generalizing w w' with
  | nil => exact ⟨fun _ => rfl, h⟩
  | cons id rest ih =>
      obtain ⟨hid, hrest⟩ := List.forall_mem_cons.mp hids
      obtain ⟨hbody, hcollect⟩ := h.collect (hchildren id hid)
      obtain ⟨hbranches, hwalk⟩ := ih hcollect hrest
      refine ⟨fun hs => ?_, hwalk⟩
      simp only [walkBranches, Document.node_bare, Node.params_bare]
      rw [hbody hs, hbranches hs]

/-- A chain of conditions is walked alike by twins if their children are. -/
theorem walkChain_twins (h : w.Twins same w') (hchildren : Visitor.Twins same d children children')
    {ids : List Nat} (hids : ∀ id ∈ ids, id ∈ d.walk) :
    (walkChain d children ids w).Twins same (walkChain d.bare children' ids w') := by
  obtain ⟨hreference, hanchor⟩ := h.anchor
  obtain ⟨hbranches, hwalk⟩ := walkBranches_twins hanchor hchildren hids
  simp only [walkChain, hreference]
  exact hwalk.spot _ fun hs => by rw [hbranches hs]

/-- A loop is walked alike by twins if its children are. -/
theorem walkLoop_twins (h : w.Twins same w') (hchildren : Visitor.Twins same d children children')
    {id : Nat} (hid : id ∈ d.walk) :
    (walkLoop d children id w).Twins same (walkLoop d.bare children' id w') := by
  simp only [walkLoop, Document.node_bare, Node.params_bare]
  split
  · obtain ⟨hreference, hanchor⟩ := h.anchor
    obtain ⟨hbody, hwalk⟩ := hanchor.collect (hchildren id hid)
    rw [hreference]
    exact hwalk.spot _ fun hs => by rw [hbody hs]
  · exact h

/-- A slot is walked alike by twins if its children are. -/
theorem walkSlot_twins (h : w.Twins same w') (hchildren : Visitor.Twins same d children children')
    {id : Nat} (hid : id ∈ d.walk) :
    (walkSlot d children id w).Twins same (walkSlot d.bare children' id w') := by
  obtain ⟨hreference, hanchor⟩ := h.anchor
  obtain ⟨hbody, hwalk⟩ := hanchor.collect (hchildren id hid)
  simp only [walkSlot, hreference]
  refine hwalk.spot _ fun hs => ?_
  rw [hbody hs, Document.node_bare]
  rfl

/-- The properties of a call are the same for twins, with positions or without. -/
theorem walkProperties_twins (h : w.Twins same w') (component : String) (reference : Nat)
    (as : List Attribute) :
    (walkProperties component reference as w).1 =
        (walkProperties component reference (as.map Attribute.bare) w').1 ∧
      (walkProperties component reference as w).2.Twins same
        (walkProperties component reference (as.map Attribute.bare) w').2 := by
  induction as generalizing w w' with
  | nil => exact ⟨rfl, h⟩
  | cons a rest ih =>
      have hrest := ih h
      have hreported := ih (h.warn (.unsupported a.fullName component) a.span none)
      simp only [List.map_cons, walkProperties, Attribute.kind_bare, Attribute.expression?_bare]
      cases a.kind with
      | plain => exact ⟨congrArg (List.cons _) hrest.1, hrest.2⟩
      | event | bind =>
          cases a.expression? with
          | none => exact hreported
          | some e => exact ⟨congrArg (List.cons _) hrest.1, hrest.2⟩
      | ref =>
          cases a.expression? with
          | none => exact hreported
          | some e => exact ih (h.spot _ fun _ => rfl)
      | action | modifier => cases a.expression? <;> exact hreported

/-- The contents of a call are walked alike by twins if their children are. -/
theorem walkContents_twins {self self' : Visitor} (h : w.Twins same w')
    (hself : Visitor.Twins same d self self') (hchildren : Visitor.Twins same d children children')
    {ids : List Nat} (hids : ∀ id ∈ ids, id ∈ d.walk) :
    (same → (walkContents d self children ids w).1 =
        (walkContents d.bare self' children' ids w').1) ∧
      (walkContents d self children ids w).2.Twins same
        (walkContents d.bare self' children' ids w').2 := by
  induction ids generalizing w w' with
  | nil => exact ⟨fun _ => rfl, h⟩
  | cons id rest ih =>
      obtain ⟨hid, hrest⟩ := List.forall_mem_cons.mp hids
      simp only [walkContents, Document.node_bare, Node.type_bare]
      by_cases hcontent : ((d.node id).type == .block .content) = true
      · obtain ⟨hbody, hcollect⟩ := h.collect (hchildren id hid)
        obtain ⟨hslots, hwalk⟩ := ih hcollect hrest
        simp only [if_pos hcontent]
        refine ⟨fun hs => ?_, hwalk⟩
        rw [hbody hs, hslots hs]
        rfl
      · simp only [if_neg hcontent]
        exact ih (hself id hid _ _ h) hrest

/-- An invocation is walked alike by twins if its contents are. -/
theorem walkInvocation_twins {self self' : Visitor} (h : w.Twins same w') (hd : d.Forward)
    (hself : Visitor.Twins same d self self') (hchildren : Visitor.Twins same d children children')
    {id : Nat} (hid : id ∈ d.walk) :
    (walkInvocation d self children id w).Twins same
      (walkInvocation d.bare self' children' id w') := by
  simp only [walkInvocation, Document.node_bare, Node.element?_bare, Document.children_bare]
  cases (d.node id).element? with
  | none => exact h
  | some e =>
      obtain ⟨hreference, hanchor⟩ := h.anchor
      obtain ⟨hprops, hwalk⟩ := walkProperties_twins hanchor e.name w.anchor.1 e.attributes
      obtain ⟨hslots, hcontents⟩ := walkContents_twins hwalk.pushFrame hself hchildren
        fun child hchild => Document.mem_walk_of_child hd hid hchild
      obtain ⟨hdefault, hall⟩ := hcontents.popFrame
      simp only [Option.map_some, Element.name_bare, Element.attributes_bare, ← hreference,
        ← hprops]
      refine hall.spot _ fun hs => ?_
      rw [hslots hs, hdefault hs]

/-- Whether a node reaches a root does not depend on positions. -/
theorem reachesRoot_bare (d : Document) (root steps id : Nat) :
    reachesRoot d.bare root steps id = reachesRoot d root steps id := by
  induction steps generalizing id with
  | zero => rfl
  | succ steps ih => simp only [reachesRoot, Document.parent?_bare, Document.node_bare,
      Node.type_bare, ih]

/-- Whether a node is at the root of a scope does not depend on positions. -/
theorem isScopeRoot_bare (d : Document) (root id : Nat) :
    isScopeRoot d.bare root id = isScopeRoot d root id := by
  simp only [isScopeRoot, reachesRoot_bare, Document.size_bare]

/-- The opening tag of an element is walked alike by twins. -/
theorem walkOpening_twins {x x' : WalkContext} (h : w.Twins same w') (hx : x.Twins same x')
    (id : Nat) (e : Element) (reference : Option Nat) :
    (walkOpening x id e reference w).Twins same (walkOpening x' id e.bare reference w') := by
  have hscope : ∀ w w' : Walk, w.Twins same w' →
      (walkScope x id w).Twins same (walkScope x' id w') := by
    intro w w' h
    have hhash := congrArg Component.styleHash h.imprint
    simp only [Component.imprint] at hhash
    simp only [walkScope, hx.document, isScopeRoot_bare, h.root, hhash]
    split
    · cases w'.component.styleHash with
      | none => exact h
      | some hash => exact h.html _
    · exact h
  have hmark : ∀ w w' : Walk, w.Twins same w' →
      (walkMark reference w).Twins same (walkMark reference w') := by
    intro w w' h
    cases reference with
    | none => exact h
    | some r => exact h.html _
  exact (walkAttributes_twins (hmark _ _ (hscope _ _ (h.html _))) e reference).html ">"

/-- An element is walked alike by twins if its children are. -/
theorem walkElement_twins {x x' : WalkContext} (h : w.Twins same w') (hx : x.Twins same x')
    (hchildren : Visitor.Twins same x.document children children') {id : Nat}
    (hid : id ∈ x.document.walk) :
    (walkElement x children id w).Twins same (walkElement x' children' id w') := by
  have hnode : x'.document.node id = (x.document.node id).bare := by
    rw [hx.document, Document.node_bare]
  cases he : (x.document.node id).element? with
  | none =>
      have he' : (x'.document.node id).element? = none := by rw [hnode, Node.element?_bare, he]; rfl
      simp only [walkElement, he, he']
      exact h
  | some e =>
      have he' : (x'.document.node id).element? = some e.bare := by
        rw [hnode, Node.element?_bare, he]
        rfl
      have hneeded : ((x'.document.node id).params.reference ||
          e.bare.attributes.any Attribute.needsReference) =
          ((x.document.node id).params.reference || e.attributes.any Attribute.needsReference) := by
        rw [hnode]
        simp [Function.comp_def]
      have hclosing : ∀ w w' : Walk, w.Twins same w' →
          (walkClosing children id e w).Twins same (walkClosing children' id e.bare w') := by
        intro w w' h
        show (walkClosing children id e w).Twins same (walkClosing children' id e w')
        unfold walkClosing
        split
        · exact h
        · cases e.raw with
          | some raw => exact (h.html raw).html _
          | none => exact (hchildren id hid _ _ h).html _
      rw [walkElement_eq x children id w he, walkElement_eq x' children' id w' he', hneeded]
      apply hclosing
      split
      · obtain ⟨hreference, hallocate⟩ := h.allocate
        rw [hreference]
        exact walkOpening_twins hallocate hx id e _
      · exact walkOpening_twins h hx id e none

/-- Whether a node may stand between conditions does not depend on positions. -/
theorem isFiller_bare (n : Node) : isFiller n.bare = isFiller n := by
  obtain ⟨type, content, children, params, position⟩ := n
  cases content with
  | element | document | text | comment => rfl

/-- The rest of a chain is looked for behind what may stand between conditions. -/
theorem chainRest_eq (d : Document) (ids : List Nat) :
    chainRest d ids =
      match ids.dropWhile fun id => isFiller (d.node id) with
      | [] => ([], ids)
      | id :: rest =>
          match (d.node id).type with
          | .block .elseIf => (id :: (chainRest d rest).1, (chainRest d rest).2)
          | .block .elseBlock => ([id], rest)
          | _ => ([], ids) := by
  rw [chainRest]
  split
  · next h => rw [h]
  · next h =>
      dsimp only
      rewrite [h]
      rfl

/-- The rest of a chain is the same without positions. -/
theorem chainRest_bare (d : Document) (ids : List Nat) :
    chainRest d.bare ids = chainRest d ids := by
  have hfiller : (fun id => isFiller (d.bare.node id)) = fun id => isFiller (d.node id) := by
    funext id
    rw [Document.node_bare, isFiller_bare]
  fun_induction chainRest d ids with
  | case1 ids h => rw [chainRest_eq, hfiller, h]
  | case2 ids id rest h _ htype more after hr ih =>
      rw [chainRest_eq, hfiller, h]
      simp only [Document.node_bare, Node.type_bare, htype, ih, hr]
  | case3 ids id rest h _ htype =>
      rw [chainRest_eq, hfiller, h]
      simp only [Document.node_bare, Node.type_bare, htype]
  | case4 ids id rest h =>
      rw [chainRest_eq, hfiller, h]
      simp only [Document.node_bare, Node.type_bare]

/-- The children of a node are grouped in the same way without positions. -/
theorem groups_bare (d : Document) (ids : List Nat) : groups d.bare ids = groups d ids := by
  have htype : ∀ id, (d.bare.node id).type = (d.node id).type := by simp
  induction ids using groups.induct d with
  | case1 => rw [groups, groups]
  | case2 id rest hif _ ih =>
      rw [groups, groups, if_pos hif, if_pos (by rw [htype]; exact hif), chainRest_bare, ih]
  | case3 id rest hif ih =>
      rw [groups, groups, if_neg hif, if_neg (by rw [htype]; exact hif), ih]

/-- Groups of children are walked alike by twins if each child is. -/
theorem walkGroups_twins {self self' : Visitor} (h : w.Twins same w')
    (hself : Visitor.Twins same d self self') (hchildren : Visitor.Twins same d children children')
    {ids : List Nat} (hids : ∀ id ∈ ids, id ∈ d.walk) :
    ((groups d ids).foldl (fun w g =>
      match g with
      | .single child => self child w
      | .chain ids => walkChain d children ids w) w).Twins same
      ((groups d ids).foldl (fun w g =>
        match g with
        | .single child => self' child w
        | .chain ids => walkChain d.bare children' ids w) w') := by
  induction ids using groups.induct d generalizing w w' with
  | case1 =>
      rw [groups]
      exact h
  | case2 id rest hif _ ih =>
      obtain ⟨hid, hrest⟩ := List.forall_mem_cons.mp hids
      obtain ⟨hmem, hafter⟩ := chainRest_mem d rest
      have hchain : ∀ i ∈ id :: (chainRest d rest).1, i ∈ d.walk :=
        List.forall_mem_cons.mpr ⟨hid, fun i hi => hrest i (hmem i hi)⟩
      rw [groups, if_pos hif]
      exact ih (walkChain_twins h hchildren hchain) fun i hi => hrest i (hafter.subset hi)
  | case3 id rest hif ih =>
      obtain ⟨hid, hrest⟩ := List.forall_mem_cons.mp hids
      rw [groups, if_neg hif]
      exact ih (hself id hid _ _ h) hrest

mutual

/-- **One step.**  A node is walked by twins, whatever its type. -/
theorem walkNode_twins {x x' : WalkContext} (hx : x.Twins same x') (steps : Nat) :
    Visitor.Twins same x.document (walkNode x steps) (walkNode x' steps) := by
  match steps with
  | 0 => exact fun _ _ _ _ h => h
  | steps + 1 =>
      have hself := walkNode_twins hx steps
      have hchildren := walkChildren_twins hx steps
      intro id hid w w' h
      have htype : (x'.document.node id).type = (x.document.node id).type := by
        rw [hx.document, Document.node_bare, Node.type_bare]
      -- the walk goes on below the node, so with attached nodes and one step less
      simp only [walkNode, htype]
      rw [hx.document]
      cases hkind : (x.document.node id).type with
      | document => exact hchildren id hid w w' h
      | element => exact walkElement_twins h hx hchildren hid
      | fragment | style => exact h
      | component => exact walkInvocation_twins h hx.forward hself hchildren hid
      | script =>
          rw [Document.node_bare]
          exact walkScript_twins h hx hid hkind
      | text =>
          simp only [Document.node_bare, Node.content_bare]
          cases (x.document.node id).content with
          | text content => exact walkText_twins h content
          | document | element | comment => exact h
      | comment =>
          simp only [Document.node_bare, Node.content_bare]
          cases (x.document.node id).content with
          | comment content => exact h.html _
          | document | element | text => exact h
      | block kind =>
          cases kind with
          | ifBlock => exact walkChain_twins h hchildren (by simpa using hid)
          | forBlock => exact walkLoop_twins h hchildren hid
          | slot => exact walkSlot_twins h hchildren hid
          | content => exact hchildren id hid _ _ (h.warn _ _ _)
          | elseIf | elseBlock => exact h.warn _ _ _

/-- The children of a node are walked alike by twins, to any depth. -/
theorem walkChildren_twins {x x' : WalkContext} (hx : x.Twins same x') (steps : Nat) :
    Visitor.Twins same x.document (walkChildren x steps) (walkChildren x' steps) := by
  match steps with
  | 0 => exact fun _ _ _ _ h => h
  | steps + 1 =>
      have hself := walkNode_twins hx steps
      have hchildren := walkChildren_twins hx steps
      intro id hid w w' h
      simp only [walkChildren]
      rw [hx.document, Document.children_bare, groups_bare]
      exact walkGroups_twins h hself hchildren fun child hchild =>
        Document.mem_walk_of_child hx.forward hid hchild

end

/-- **Two walks of a component** stay twins to the end. -/
theorem walkComponent_twins {x x' : WalkContext} (h : w.Twins same w') (hx : x.Twins same x')
    (hroot : w.component.root ∈ x.document.walk) :
    (walkComponent x w).Twins same (walkComponent x' w') := by
  have hplaced : ∀ (o : Options) (c : Component), injectedStyle o c = injectedStyle o c.imprint :=
    fun _ _ => rfl
  have hstyle : injectedStyle x.options w.component = injectedStyle x'.options w'.component := by
    rw [hplaced, hplaced x'.options, h.imprint]
    simp only [injectedStyle, hx.options.css]
  have hroots : w.component.root = w'.component.root := h.root
  have hchildren := walkChildren_twins hx (2 * x.document.size + 2)
  have hstart := h.html (injectedStyle x.options w.component)
  have hwalked : ∀ (w : Walk) (text : String), (w.html text).component.root = w.component.root := by
    intro w text
    have houtline := congrArg Component.root (Walk.blind_outline.html w text)
    simpa only [Walk.outline, Component.outline] using houtline
  simp only [walkComponent, hwalked, ← hstyle, hroots, hx.document, Document.size_bare]
  split
  · exact hchildren _ (hroots ▸ hroot) _ _ hstart
  · exact walkElement_twins hstart hx hchildren (hroots ▸ hroot)

end Nodes

end Stencil
