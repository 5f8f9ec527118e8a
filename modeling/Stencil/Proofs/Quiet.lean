import Stencil.Proofs.Outline

/-!
# What is added at the leaves

Static markup, attributes, texts, scripts and the properties of an invocation add markup and
expressions to the frame that is being filled, and spots that hold no frames.  `Walk.Quiet` is the
relation of everything that such steps can do; what it keeps is shown once for each constructor, and
holds of all the leaves.
-/

namespace Stencil

open Stencil.Markup Stencil.Render Stencil.Source

/-- Whether a spot of this kind holds no frames and calls no component. -/
def Render.SpotKind.isPlain : SpotKind → Bool
  | .conditional _ | .each _ _ | .slot _ _ | .invoke _ _ _ => false
  | _ => true

/-- A plain kind of spot has no frames. -/
theorem Render.SpotKind.frames_of_isPlain {kind : SpotKind} (h : kind.isPlain = true) :
    kind.frames = [] := by
  cases kind <;> simp_all [SpotKind.isPlain, SpotKind.frames]

namespace Walk

/-- Only markup, expressions and plain spots are added to the frame that is being filled, and
warnings that are not about a chain of conditions. -/
inductive Quiet : Walk → Walk → Prop
  | refl (w : Walk) : Quiet w w
  | trans {w₁ w₂ w₃ : Walk} (h : Quiet w₁ w₂) (h' : Quiet w₂ w₃) : Quiet w₁ w₃
  | html (w : Walk) (text : String) : Quiet w (w.html text)
  | constant (w : Walk) (code : String) (raw : Bool) : Quiet w (w.constant code raw)
  | spot (w : Walk) (reference : Option Nat) {kind : SpotKind} (h : kind.isPlain = true) :
      Quiet w (w.spot reference kind)
  | warn (w : Walk) {p : Component.Problem} (h : ∀ kind, p ≠ .withoutIf kind)
      (span : Option Span) : Quiet w (w.warn p span)
  /-- References, scripts and exports are not part of the frames. -/
  | beside (w : Walk) {c : Component} (imports : Imports) (h : c.stack = w.component.stack) :
      Quiet w { w with component := c, imports }

/-- What is beside the frames does not change them. -/
theorem frame_beside {w : Walk} {c : Component} (imports : Imports)
    (h : c.stack = w.component.stack) : Walk.frame { w with component := c, imports } = w.frame := by
  rw [c.stack_eq, w.component.stack_eq] at h
  exact (List.cons.inj h).1

/-- Taking a number is quiet. -/
theorem Quiet.allocate (w : Walk) : w.Quiet w.allocate.2 := .beside w w.imports rfl

/-- Placing an anchor is quiet. -/
theorem Quiet.anchor (w : Walk) : w.Quiet w.anchor.2 := (Quiet.allocate w).trans (.html _ _)

end Walk

/-- Walking over a value is quiet. -/
theorem walkValue_quiet (w : Walk) (parts : List Part) : w.Quiet (walkValue w parts) := by
  fun_induction walkValue w parts with
  | case1 w => exact .refl w
  | case2 w text rest ih => exact (Walk.Quiet.html w _).trans ih
  | case3 w e html rest ih => exact (Walk.Quiet.constant w _ _).trans ih

/-- Walking over a static attribute is quiet. -/
theorem walkStatic_quiet (w : Walk) (a : Attribute) : w.Quiet (walkStatic w a) := by
  unfold walkStatic
  split
  · exact .html w _
  · exact .html w _
  · exact ((Walk.Quiet.html w _).trans (walkValue_quiet _ _)).trans (.html _ _)

/-- Walking over modifiers is quiet. -/
theorem walkModifiers_quiet (w : Walk) (span : Option Span) (names : List String) :
    w.Quiet (walkModifiers w span names).2 := by
  fun_induction walkModifiers w span names with
  | case1 w => exact .refl w
  | case2 w name rest bit hbit bits w' hrest ih => rwa [hrest] at ih
  | case3 w name rest hbit ih => exact (Walk.Quiet.warn w (by simp) span).trans ih

/-- Walking over an attribute is quiet. -/
theorem walkAttribute_quiet (e : Element) (reference : Option Nat) (c : Combined) (w : Walk)
    (a : Attribute) : w.Quiet (walkAttribute e reference c w a).2 := by
  unfold walkAttribute
  split
  · unfold walkPlain
    repeat' split
    · exact .refl w
    · exact .refl w
    · exact .spot w _ rfl
    · exact walkStatic_quiet w a
  · unfold walkModifier
    repeat' split
    · exact .warn w (by simp) _
    · exact .refl w
    · exact .refl w
    · exact .warn w (by simp) _
  · split
    · exact .warn w (by simp) _
    · exact (walkModifiers_quiet w _ _).trans (.spot _ _ rfl)
  · split
    · exact .warn w (by simp) _
    · exact .spot w _ rfl
  · split
    · exact .warn w (by simp) _
    · exact .spot w _ rfl
  · exact .spot w _ rfl

/-- Walking over a list of attributes is quiet. -/
theorem walkAttributes_quiet (e : Element) (reference : Option Nat) (w : Walk) :
    w.Quiet (walkAttributes e reference w) := by
  have hfold : ∀ (as : List Attribute) (s : Combined × Walk),
      s.2.Quiet (as.foldl (fun s a => walkAttribute e reference s.1 s.2 a) s).2 := by
    intro as
    induction as with
    | nil => exact fun s => .refl s.2
    | cons a as ih => exact fun s => (walkAttribute_quiet e reference s.1 s.2 a).trans (ih _)
  rw [walkAttributes_eq]
  refine (hfold e.attributes ({}, w)).trans ?_
  unfold walkCombined
  dsimp only
  repeat' split
  · exact .refl _
  · exact .spot _ _ rfl
  · exact .spot _ _ rfl
  · exact (Walk.Quiet.spot _ _ rfl).trans (.spot _ _ rfl)

/-- Walking over parts is quiet. -/
theorem walkParts_quiet (w : Walk) (parts : List Part) : w.Quiet (walkParts w parts) := by
  fun_induction walkParts w parts with
  | case1 w => exact .refl w
  | case2 w text rest ih => exact (Walk.Quiet.html w _).trans ih
  | case3 w e html rest hstatic ih => exact (Walk.Quiet.constant w _ _).trans ih
  | case4 w e html rest hstatic reference w' hanchor ih =>
      have hmark := Walk.Quiet.anchor w
      rw [hanchor] at hmark
      exact (hmark.trans (.spot _ _ rfl)).trans ih

/-- Walking over a text is quiet. -/
theorem walkText_quiet (w : Walk) (t : TextContent) : w.Quiet (walkText w t) := by
  cases t with
  | raw text => exact .html w text
  | parts parts => exact walkParts_quiet w parts

/-- Walking over a script is quiet. -/
theorem walkScript_quiet (x : WalkContext) (n : Node) (w : Walk) : w.Quiet (walkScript x n w) := by
  unfold walkScript
  split
  · split
    · exact .refl w
    · next parts _ =>
        dsimp only
        unfold Component.addScript
        repeat' split
        · exact .beside w _ rfl
        · exact .beside w _ rfl
        · exact (Walk.Quiet.beside w (c := { w.component with
            exports := w.component.exports ++ parts.exports }) _ rfl).trans (.spot _ none rfl)
  · exact .refl w

/-- Walking over an opening tag is quiet. -/
theorem walkOpening_quiet (x : WalkContext) (id : Nat) (e : Element) (reference : Option Nat)
    (w : Walk) : w.Quiet (walkOpening x id e reference w) := by
  have hscope : ∀ w : Walk, w.Quiet (walkScope x id w) := by
    intro w
    unfold walkScope
    repeat' split
    · exact .html w _
    · exact .refl w
    · exact .refl w
  have hmark : ∀ w : Walk, w.Quiet (walkMark reference w) := by
    intro w
    unfold walkMark
    split
    · exact .html w _
    · exact .refl w
  exact ((((Walk.Quiet.html w _).trans (hscope _)).trans (hmark _)).trans
    (walkAttributes_quiet e reference _)).trans (.html _ _)

/-- Walking over the properties of a component is quiet. -/
theorem walkProperties_quiet (component : String) (reference : Nat) (as : List Attribute)
    (w : Walk) : w.Quiet (walkProperties component reference as w).2 := by
  induction as generalizing w with
  | nil => exact .refl w
  | cons a rest ih =>
      unfold walkProperties
      dsimp only
      split
      · exact ih w
      · exact ih w
      · exact ih w
      · exact (Walk.Quiet.spot w _ rfl).trans (ih _)
      · exact (Walk.Quiet.warn w (by simp) _).trans (ih _)

end Stencil
