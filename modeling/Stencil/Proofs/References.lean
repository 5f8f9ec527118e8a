import Stencil.Proofs.OpenTag
import Stencil.Proofs.Shape

/-!
# References of nodes

What each kind of node adds to the frame that is being filled, given what its children add.  Blocks
and invocations mark their place, fill frames of their own and leave them to a spot; `walk_reads`
puts the kinds together along the recursion of the walk.
-/

namespace Stencil

open Stencil.Markup Stencil.Render Stencil.Text Walk

theorem walkParts_reads (w : Walk) (parts : List Part) :
    w.Reads (walkParts w parts) (literalParts parts) [] := by
  induction parts generalizing w with
  | nil => exact .refl w
  | cons part rest ih =>
      cases part with
      | literal text => exact (w.reads_html text).trans (ih _)
      | expression e html =>
          simp only [walkParts]
          split
          · exact ((w.breaks_constant e.code html).reads [' ']).trans (ih _)
          · have hbreaks : w.Breaks (w.anchor.2.spot (some w.anchor.1) (.text e html)) :=
              w.breaks_anchor (.refl _ _) rfl (.refl _)
            exact (hbreaks.reads [' ']).trans (ih _)

theorem walkText_reads (w : Walk) (t : TextContent) : w.Reads (walkText w t) t.literal [] := by
  cases t with
  | raw text => exact w.reads_html text
  | parts parts => exact walkParts_reads w parts

/-- A comment that imitates no marker. -/
theorem breaks_comment {w : Walk} {t : String} (h : (Content.comment t).Unmarked) :
    w.Breaks (w.html ("<!--" ++ t ++ "-->")) := by
  have hmarkup : ("<!--" ++ t ++ "-->").toList =
      ['<', '!', '-', '-'] ++ t.toList ++ ['-', '-', '>'] := by simp
  refine w.breaks_html (by simp) ?_ ?_
  · rw [String.toList_append, List.getLast?_append]
    rfl
  · rw [hmarkup]
    exact markersIn_comment h.1 h.2

/-- A script adds at most a spot about no node. -/
theorem walkScript_reads (x : WalkContext) (n : Node) (w : Walk) :
    w.Reads (walkScript x n w) [] [] := by
  unfold walkScript
  split
  · split
    · exact .refl w
    · next parts _ =>
        have haside : w.Aside { w with
            imports := parts.imports.foldl (·.add x.lang · parts.typescript) w.imports
            component := { w.component with
              exports := w.component.exports ++ parts.exports } } [] := ⟨rfl, rfl, .refl _⟩
        dsimp only
        unfold Component.addScript
        split
        · exact haside.reads
        · split
          · exact Aside.reads ⟨rfl, rfl, .refl _⟩
          · exact haside.reads.trans (reads_spot _ rfl)
  · exact .refl w

/-- The inside of a node, walked into a frame of its own, is numbered. -/
def Visitor.Collects (children : Visitor) (id : Nat) : Prop :=
  ∀ w : Walk, w.Hashed → w.Aside (w.collect (children id)).2 (w.collect (children id)).1.frames

theorem Walk.Hashed.anchor {w : Walk} (h : w.Hashed) : w.anchor.2.Hashed :=
  w.fills_anchor.1.hashed h

/-- The blocks of a chain fill the frames of its branches. -/
theorem walkBranches_aside (d : Document) {children : Visitor} (ids : List Nat)
    (hcollects : ∀ id ∈ ids, children.Collects id) (w : Walk) (hw : w.Hashed) :
    w.Aside (walkBranches d children ids w).2
      (branchFrames (walkBranches d children ids w).1) := by
  induction ids generalizing w with
  | nil => exact .refl w
  | cons id rest ih =>
      have hfirst := hcollects id List.mem_cons_self w hw
      exact hfirst.trans (ih (fun i hi => hcollects i (List.mem_cons_of_mem id hi)) _
        (hfirst.grows.hashed hw))

theorem walkChain_breaks (d : Document) {children : Visitor} {ids : List Nat}
    (hcollects : ∀ id ∈ ids, children.Collects id) {w : Walk} (hw : w.Hashed) :
    w.Breaks (walkChain d children ids w) :=
  w.breaks_anchor (.refl _ _) rfl (walkBranches_aside d ids hcollects w.anchor.2 hw.anchor)

/-- A loop breaks the text, and a block that is no loop leaves it as it is. -/
theorem walkLoop_reads (d : Document) {children : Visitor} {id : Nat}
    (hcollects : children.Collects id) {w : Walk} (hw : w.Hashed) :
    w.Reads (walkLoop d children id w)
      (match (d.node id).params.block with
        | some (.loop _) => [' ']
        | _ => []) [] := by
  simp only [walkLoop]
  cases (d.node id).params.block with
  | none => exact .refl w
  | some params =>
      cases params with
      | loop header =>
          exact (w.breaks_anchor (.refl _ _) rfl (hcollects w.anchor.2 hw.anchor)).reads _
      | condition _ | slot _ => exact .refl w

/-- A slot without content of its own forgets the frame that was filled for it. -/
theorem walkSlot_breaks (d : Document) {children : Visitor} {id : Nat}
    (hcollects : children.Collects id) {w : Walk} (hw : w.Hashed) :
    w.Breaks (walkSlot d children id w) := by
  have hbody := hcollects w.anchor.2 hw.anchor
  simp only [walkSlot]
  split
  · next hempty =>
      rw [← List.append_nil (Frame.frames _)] at hbody
      exact w.breaks_anchor (.refl _ _) rfl (hbody.forget hempty)
  · exact w.breaks_anchor (.refl _ _) rfl hbody

/-- The properties of an invocation leave spots about it, and no markup. -/
theorem walkProperties_attaches (component : String) (reference : Nat) (as : List Attribute)
    (w : Walk) : Attaches (some reference) w (walkProperties component reference as w).2 ∧
      (walkProperties component reference as w).2.frame.tail = w.frame.tail := by
  induction as generalizing w with
  | nil => exact ⟨.refl _ w, rfl⟩
  | cons a rest ih =>
      unfold walkProperties
      dsimp only
      split
      · exact ih w
      · exact ih w
      · exact ih w
      · next target _ _ =>
          obtain ⟨hattaches, htail⟩ := ih (w.spot (some reference) (.ref target))
          refine ⟨(w.attaches_spot _ rfl).trans hattaches, ?_⟩
          rw [htail, frame_spot, Frame.tail_pushSpot]
      · obtain ⟨hattaches, htail⟩ := ih (w.warn (.unsupported a.fullName component) a.span)
        exact ⟨(w.attaches_warn _ _ _).trans hattaches, htail⟩

/-- The children of an invocation: those that fill a slot go into frames of their own. -/
theorem walkContents_reads (d : Document) {self children : Visitor} (ids : List Nat)
    (hself : ∀ id ∈ ids, ∀ w : Walk, w.Hashed → w.Reads (self id w) (d.literalText d.size id) [])
    (hcollects : ∀ id ∈ ids, children.Collects id) (w : Walk) (hw : w.Hashed) :
    w.Reads (walkContents d self children ids w).2
      ((ids.filter fun id => (d.node id).type != .block .content).flatMap (d.literalText d.size))
      (slotFrames (walkContents d self children ids w).1) := by
  induction ids generalizing w with
  | nil => exact .refl w
  | cons id rest ih =>
      have ih := ih (fun i hi => hself i (List.mem_cons_of_mem id hi))
        (fun i hi => hcollects i (List.mem_cons_of_mem id hi))
      unfold walkContents
      dsimp only
      split
      · next hcontent =>
          have hfirst := hcollects id List.mem_cons_self w hw
          have hrest := ih _ (hfirst.grows.hashed hw)
          have hskip : ((d.node id).type != .block .content) = false := by simpa using hcontent
          rw [List.filter_cons_of_neg (by simp [hskip])]
          exact hfirst.reads.trans hrest
      · next hother =>
          have hfirst := hself id List.mem_cons_self w hw
          have hrest := ih _ (hfirst.hashed hw)
          have hkeep : ((d.node id).type != .block .content) = true := by simpa using hother
          rw [List.filter_cons_of_pos (by simp [hkeep])]
          exact hfirst.trans hrest

/-- The invocation of a component. -/
theorem walkInvocation_breaks (d : Document) {self children : Visitor} {id : Nat} {e : Element}
    (he : (d.node id).element? = some e) (hplain : Plain (d.defaultText id))
    (hself : ∀ child ∈ d.children id, ∀ w : Walk, w.Hashed →
      w.Reads (self child w) (d.literalText d.size child) [])
    (hcollects : ∀ child ∈ d.children id, children.Collects child) {w : Walk} (hw : w.Hashed) :
    w.Breaks (walkInvocation d self children id w) := by
  simp only [walkInvocation, he]
  obtain ⟨hattaches, htail⟩ :=
    walkProperties_attaches e.name w.anchor.1 e.attributes w.anchor.2
  generalize hprops : walkProperties e.name w.anchor.1 e.attributes w.anchor.2 = props
    at hattaches htail ⊢
  have hhashed : props.2.Hashed := by
    obtain ⟨_, hfills, _⟩ := hattaches
    exact hfills.hashed hw.anchor
  have hcontents := (walkContents_reads d (d.children id) hself hcollects
    (props.2.map (·.pushFrame)) hhashed).collected hplain
  split
  · next hempty => exact w.breaks_anchor hattaches htail (hcontents.forget hempty)
  · exact w.breaks_anchor hattaches htail hcontents

/-- The blocks of a chain are among the siblings, and what follows it is their end. -/
theorem chainRest_mem (d : Document) (ids : List Nat) :
    (∀ id ∈ (chainRest d ids).1, id ∈ ids) ∧ (chainRest d ids).2 <:+ ids := by
  have hdrop : ∀ {ids rest : List Nat} {id : Nat},
      ids.dropWhile (fun id => isFiller (d.node id)) = id :: rest → id :: rest <:+ ids := by
    intro ids rest id h
    rw [← h]
    exact List.dropWhile_suffix _
  fun_induction chainRest d ids with
  | case1 => simp
  | case2 ids id rest h _ _ more after hr ih =>
      rw [hr] at ih
      have hsuf := hdrop h
      refine ⟨?_, ih.2.trans ((List.suffix_cons id rest).trans hsuf)⟩
      intro i hi
      rcases List.mem_cons.mp hi with rfl | hi
      · exact hsuf.subset List.mem_cons_self
      · exact hsuf.subset (List.mem_cons_of_mem _ (ih.1 i hi))
  | case3 ids id rest h _ _ =>
      have hsuf := hdrop h
      refine ⟨?_, (List.suffix_cons id rest).trans hsuf⟩
      intro i hi
      rw [List.mem_singleton.mp hi]
      exact hsuf.subset List.mem_cons_self
  | case4 => simp

/-- **Siblings.**  A chain of conditions stands for all the nodes it takes in. -/
theorem walkGroups_reads (d : Document) {self children : Visitor} (ids : List Nat)
    (hself : ∀ id ∈ ids, ∀ w : Walk, w.Hashed → w.Reads (self id w) (d.literalText d.size id) [])
    (hcollects : ∀ id ∈ ids, children.Collects id) (w : Walk) (hw : w.Hashed) :
    w.Reads ((groups d ids).foldl (fun w g =>
      match g with
      | .single child => self child w
      | .chain ids => walkChain d children ids w) w) (ids.flatMap (d.literalText d.size)) [] := by
  induction ids using groups.induct d generalizing w with
  | case1 => rw [groups]; exact .refl w
  | case2 id rest hif _ ih =>
      obtain ⟨hmem, taken, htaken⟩ := chainRest_mem d rest
      have hafter : ∀ i ∈ (chainRest d rest).2, i ∈ id :: rest := by
        intro i hi
        rw [← htaken]
        simp [hi]
      have hchain : w.Breaks (walkChain d children (id :: (chainRest d rest).1) w) := by
        apply walkChain_breaks d _ hw
        intro i hi
        rcases List.mem_cons.mp hi with rfl | hi
        · exact hcollects i List.mem_cons_self
        · exact hcollects i (List.mem_cons_of_mem id (hmem i hi))
      have hrest := ih (fun i hi => hself i (hafter i hi)) (fun i hi => hcollects i (hafter i hi)) _
        (hchain.1.hashed hw)
      have hall := (hchain.reads ((id :: taken).flatMap (d.literalText d.size))).trans hrest
      rw [← List.flatMap_append, List.cons_append, htaken] at hall
      rw [groups, if_pos hif]
      exact hall
  | case3 id rest hif ih =>
      have hfirst := hself id List.mem_cons_self w hw
      have hrest := ih (fun i hi => hself i (List.mem_cons_of_mem id hi))
        (fun i hi => hcollects i (List.mem_cons_of_mem id hi)) _ (hfirst.hashed hw)
      rw [groups, if_neg hif]
      exact hfirst.trans hrest

/-- No node is deeper below another than there are nodes after it. -/
theorem Markup.Document.WellFormed.literalText_eq {d : Document} (h : d.WellFormed)
    {id levels levels' : Nat} (hl : d.size - id ≤ levels) (hl' : d.size - id ≤ levels')
    (hid : id < d.size) : d.literalText levels id = d.literalText levels' id := by
  induction levels generalizing id levels' with
  | zero => omega
  | succ levels ih =>
      cases levels' with
      | zero => omega
      | succ levels' =>
          have hbelow : ∀ child ∈ d.children id,
              d.literalText levels child = d.literalText levels' child := by
            intro child hchild
            have hforward := h.forward id child hchild
            exact ih (by omega) (by omega) hforward.2
          have hchildren : (d.children id).flatMap (d.literalText levels) =
              (d.children id).flatMap (d.literalText levels') := by
            unfold List.flatMap
            rw [List.map_congr_left hbelow]
          simp only [Document.literalText, hchildren]

/-- The text among the children of a node is plain, also behind the last node. -/
theorem Markup.Document.Unmarked.plain_childText {d : Document} (h : d.Unmarked) (id : Nat) :
    Plain (d.childText id) := by
  by_cases hid : id < d.size
  · exact (h id hid).2.1
  · have hnone : d.children id = [] := by
      rw [Document.children, Document.node_of_size_le (Nat.not_lt.mp hid)]
      rfl
    rw [Document.childText, hnone, List.flatMap_nil]
    decide

/-- The literal text that a node adds, by its type. -/
theorem Markup.Document.literalText_succ (d : Document) (levels id : Nat) :
    d.literalText (levels + 1) id =
      match (d.node id).type with
      | .document | .block .content => (d.children id).flatMap (d.literalText levels)
      | .element | .component =>
          match (d.node id).content with
          | .element _ => [' ']
          | _ => []
      | .comment =>
          match (d.node id).content with
          | .comment _ => [' ']
          | _ => []
      | .text =>
          match (d.node id).content with
          | .text t => t.literal
          | _ => []
      | .block .ifBlock | .block .slot => [' ']
      | .block .forBlock =>
          match (d.node id).params.block with
          | some (.loop _) => [' ']
          | _ => []
      | .fragment | .style | .script | .block .elseIf | .block .elseBlock => [] := by
  cases htype : (d.node id).type with
  | document | fragment | style | script => simp [literalText, Node.prints, htype]
  | element | component | comment | text =>
      cases hc : (d.node id).content <;> simp [literalText, Node.prints, htype, hc]
  | block kind =>
      cases kind with
      | forBlock =>
          cases hblock : (d.node id).params.block with
          | none => simp [literalText, Node.prints, htype, hblock]
          | some params => cases params <;> simp [literalText, Node.prints, htype, hblock]
      | ifBlock | elseIf | elseBlock | slot | content => simp [literalText, Node.prints, htype]

/-- **A node**, given what its children add. -/
theorem walkNode_reads (x : WalkContext) (hwf : x.document.WellFormed)
    (hunmarked : x.document.Unmarked) {steps id : Nat} (hid : id < x.document.size)
    (hself : ∀ child ∈ x.document.children id, ∀ w : Walk, w.Hashed →
      w.Reads (walkNode x steps child w) (x.document.literalText x.document.size child) [])
    (hchildren : ∀ w : Walk, w.Hashed →
      w.Reads (walkChildren x steps id w) (x.document.childText id) [])
    (hcollects : ∀ child ∈ x.document.children id, (walkChildren x steps).Collects child)
    {w : Walk} (hw : w.Hashed) :
    w.Reads (walkNode x (steps + 1) id w) (x.document.literalText x.document.size id) [] := by
  have hown : (walkChildren x steps).Collects id := by
    intro w hw
    exact (hchildren (w.map (·.pushFrame)) hw).collect (hunmarked.plain_childText id)
  have htext : x.document.literalText x.document.size id =
      x.document.literalText (x.document.size + 1) id :=
    hwf.literalText_eq (by omega) (by omega) hid
  obtain ⟨hcontent, hplain, hdefault⟩ := hunmarked id hid
  rw [htext, Document.literalText_succ]
  simp only [walkNode]
  cases htype : (x.document.node id).type with
  | document => exact hchildren w hw
  | element =>
      cases hc : (x.document.node id).content with
      | element e =>
          have he : (x.document.node id).element? = some e := by simp [Node.element?, hc]
          have hname := hwf.named id e.name (by simp [Node.tag?, he])
          exact (walkElement_breaks x _ id he hw hname (hc ▸ hcontent) hplain hchildren).reads _
      | document | text _ | comment _ =>
          simp only [walkElement, Node.element?, hc]
          exact .refl w
  | fragment | style => exact .refl w
  | component =>
      cases hc : (x.document.node id).content with
      | element e =>
          have he : (x.document.node id).element? = some e := by simp [Node.element?, hc]
          exact (walkInvocation_breaks x.document he (hdefault htype) hself hcollects hw).reads _
      | document | text _ | comment _ =>
          simp only [walkInvocation, Node.element?, hc]
          exact .refl w
  | script => exact walkScript_reads x _ w
  | text =>
      cases (x.document.node id).content with
      | text t => exact walkText_reads w t
      | document | element _ | comment _ => exact .refl w
  | comment =>
      cases hc : (x.document.node id).content with
      | comment t =>
          rw [hc] at hcontent
          exact (breaks_comment hcontent).reads _
      | document | element _ | text _ => exact .refl w
  | block kind =>
      cases kind with
      | ifBlock => exact (walkChain_breaks x.document (by simpa using hown) hw).reads _
      | forBlock => exact walkLoop_reads x.document hown hw
      | slot => exact (walkSlot_breaks x.document hown hw).reads _
      | content => exact (w.aside_warn .strayContent _).reads.trans (hchildren _ hw)
      | elseIf | elseBlock => exact (w.aside_warn _ _).reads

/-- **The walk of a node and of its children.**  Each level takes two steps, and the children of a
node come after it, so the steps are enough for all nodes from it on. -/
theorem walk_reads (x : WalkContext) (hwf : x.document.WellFormed) (hunmarked : x.document.Unmarked)
    (steps : Nat) :
    (∀ id < x.document.size, 2 * (x.document.size - id) + 1 ≤ steps → ∀ w : Walk, w.Hashed →
      w.Reads (walkNode x steps id w) (x.document.literalText x.document.size id) []) ∧
    ∀ id, 2 * (x.document.size - id) ≤ steps → ∀ w : Walk, w.Hashed →
      w.Reads (walkChildren x steps id w) (x.document.childText id) [] := by
  induction steps with
  | zero =>
      refine ⟨fun id _ hsteps => by omega, fun id hsteps w _ => ?_⟩
      have hnone : x.document.children id = [] := by
        rw [Document.children, Document.node_of_size_le (by omega)]
        rfl
      simp only [walkChildren, Document.childText, hnone]
      exact .refl w
  | succ steps ih =>
      obtain ⟨ihnode, ihchildren⟩ := ih
      -- what is below a node with enough steps has enough steps
      have hself : ∀ id, 2 * (x.document.size - id) ≤ steps + 1 → ∀ child ∈ x.document.children id,
          ∀ w : Walk, w.Hashed →
            w.Reads (walkNode x steps child w) (x.document.literalText x.document.size child) [] := by
        intro id hsteps child hchild
        have hforward := hwf.forward id child hchild
        exact ihnode child hforward.2 (by omega)
      have hcollects : ∀ id, 2 * (x.document.size - id) ≤ steps + 1 →
          ∀ child ∈ x.document.children id, (walkChildren x steps).Collects child := by
        intro id hsteps child hchild w hw
        have hforward := hwf.forward id child hchild
        have hreads := ihchildren child (by omega) (w.map (·.pushFrame)) hw
        exact hreads.collect (hunmarked.plain_childText child)
      refine ⟨fun id hid hsteps w hw => ?_, fun id hsteps w hw => ?_⟩
      · exact walkNode_reads x hwf hunmarked hid (hself id (by omega)) (ihchildren id (by omega))
          (hcollects id (by omega)) hw
      · exact walkGroups_reads x.document (x.document.children id) (hself id hsteps)
          (hcollects id hsteps) w hw

end Stencil
