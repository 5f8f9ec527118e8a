import Mathlib.Algebra.Group.Prod
import Stencil.Proofs.Picked

/-!
# Chains of conditions are compiled whole

The walk of a component leaves one conditional for each chain among the children it compiles, with
one branch for each block of the chain, and one warning for each block that would continue a chain
where there is none.  `Walk.Gathers` says of a stretch of the walk which chains and which blocks
without a chain it has dealt with; it keeps account of the walk (`Walk.Gathers.account`), and
`addDocument_chains` is about all components of a template.
-/

namespace Stencil.Render

/-- The branches of a conditional. -/
def SpotKind.branches? : SpotKind → Option (List Branch)
  | .conditional branches => some branches
  | _ => none

theorem SpotKind.branches?_of_isPlain {kind : SpotKind} (h : kind.isPlain = true) :
    kind.branches? = none := by
  cases kind <;> simp_all [SpotKind.isPlain, SpotKind.branches?]

/-- The conditionals among some spots. -/
def conditionalsAt (spots : List Spot) : Multiset (List Branch) :=
  ↑(spots.filterMap fun s => s.kind.branches?)

/-- The conditionals in some frames. -/
def conditionalsIn (fs : List Frame) : Multiset (List Branch) := conditionalsAt (fs.flatMap Frame.spots)

/-- The conditionals in a frame and in the frames inside it. -/
def Frame.conditionals (f : Frame) : Multiset (List Branch) := conditionalsIn f.frames

end Stencil.Render

namespace Stencil

open Stencil.Markup Stencil.Render Stencil.Source
open Stencil.Script (Expression Language)
open Stencil.Markup.Document (Found)

/-- Whether a message is about a block that continues no chain. -/
def isAboutChain (message : String) : Bool :=
  message == (Component.Problem.withoutIf .elseIf).message ||
    message == (Component.Problem.withoutIf .elseBlock).message

/-- The diagnostics about blocks that continue no chain. -/
def aboutChains (found : List Diagnostic) : List Diagnostic :=
  found.filter fun diagnostic => isAboutChain diagnostic.message

/-- The warning about a block that continues no chain. -/
def Markup.Document.strayWarning (d : Document) (id : Nat) : Diagnostic :=
  let kind : BlockKind := if (d.node id).type = .block .elseIf then .elseIf else .elseBlock
  .warning (Component.Problem.withoutIf kind).message (d.node id).span

theorem head?_withoutIf (kind : Markup.BlockKind) :
    (Component.Problem.withoutIf kind).message.toList.head? = some '<' := by
  change ("<" ++ kind.tag ++ "> block without a preceding <if>").toList.head? = some '<'
  simp

/-- No other message is taken for one about a chain. -/
theorem isAboutChain_of_ne {p : Component.Problem} (h : ∀ kind, p ≠ .withoutIf kind) :
    isAboutChain p.message = false := by
  have hhead : p.message.toList.head? ≠ some '<' → isAboutChain p.message = false := by
    intro hother
    have hne : ∀ kind, p.message ≠ (Component.Problem.withoutIf kind).message := by
      intro kind heq
      exact hother (heq ▸ head?_withoutIf kind)
    simp [isAboutChain, hne]
  cases p with
  | withoutIf kind => exact absurd rfl (h kind)
  | strayContent =>
      change ("<content> block outside a component invocation" ==
        "<" ++ "elseif" ++ "> block without a preceding <if>" ||
        "<content> block outside a component invocation" ==
        "<" ++ "else" ++ "> block without a preceding <if>") = false
      decide
  | noValue name | noHandler name | noTarget name =>
      refine hhead ?_
      change (Component.shown name ++ _).toList.head? ≠ some '<'
      simp [Component.shown]
  | unsupported name component =>
      refine hhead ?_
      change (Component.shown name ++ _ ++ component ++ _).toList.head? ≠ some '<'
      simp [Component.shown]
  | unknownModifierAttribute name =>
      refine hhead ?_
      change ("Unknown modifier attribute " ++ Component.shown name).toList.head? ≠ some '<'
      simp
  | unknownEventModifier name =>
      refine hhead ?_
      change ("Unknown event modifier " ++ Component.shown name).toList.head? ≠ some '<'
      simp
  | duplicate name =>
      refine hhead ?_
      change ("Duplicate component name \"" ++ name ++ "\"").toList.head? ≠ some '<'
      simp

/-- What is found at a chain of conditions, and at a block that continues none. -/
def chainTally : Tally Found where
  chain ids := ({ids}, 0)
  stray id := (0, {id})
  call _ := 0
  text _ := 0

/-- What a stretch of the walk has dealt with: each chain of conditions has its conditional, in the
frame that is being filled or in one of the frames that were filled besides, and there is one
warning for each block that continues no chain. -/
structure Walk.Gathers (x : WalkContext) (w w' : Walk) (loose : List Frame) (f : Found) : Prop where
  chains : w.Picks SpotKind.branches? x.Builds w' loose f.1
  warnings : (↑(aboutChains w'.diagnostics) : Multiset Diagnostic) =
    ↑(aboutChains w.diagnostics) + f.2.map x.document.strayWarning

namespace Walk.Gathers

variable {x : WalkContext} {w w' w₁ w₂ w₃ : Walk} {loose loose' : List Frame} {f f' : Found}

/-- Nothing is gathered at the leaves. -/
theorem quiet (h : w.Quiet w') : w.Gathers x w' [] 0 := by
  have hwarnings : aboutChains w'.diagnostics = aboutChains w.diagnostics := by
    induction h with
    | trans _ _ ih ih' => exact ih'.trans ih
    | warn w hp span => simp [aboutChains, Walk.warn, Diagnostic.warning, isAboutChain_of_ne hp]
    | refl | html | constant | spot | beside => rfl
  exact ⟨.quiet (fun _ => SpotKind.branches?_of_isPlain) h, by simp [hwarnings]⟩

/-- **Stretches of the walk add up.** -/
theorem trans (h : w₁.Gathers x w₂ loose f) (h' : w₂.Gathers x w₃ loose' f') :
    w₁.Gathers x w₃ (loose ++ loose') (f + f') := by
  refine ⟨h.chains.trans h'.chains, ?_⟩
  rw [h'.warnings, h.warnings, Prod.snd_add, Multiset.map_add, add_assoc]

/-- A conditional that is compiled from a chain. -/
theorem conditional {branches : List Branch} {ids : List Nat}
    (h : w.Gathers x w' (branchFrames branches) f) (hbuilds : x.Builds ids branches)
    (reference : Option Nat) :
    w.Gathers x (w'.spot reference (.conditional branches)) [] (({ids}, 0) + f) := by
  refine ⟨h.chains.made (.conditional branches) rfl hbuilds reference, ?_⟩
  rw [Prod.snd_add, zero_add]
  exact h.warnings

/-- A block that continues no chain is reported. -/
theorem stray (w : Walk) {id : Nat} {kind : BlockKind}
    (htype : (x.document.node id).type = .block kind) (hkind : kind = .elseIf ∨ kind = .elseBlock) :
    w.Gathers x (w.warn (.withoutIf kind) (x.document.node id).span) [] (0, {id}) := by
  have hwarning : x.document.strayWarning id =
      .warning (Component.Problem.withoutIf kind).message (x.document.node id).span := by
    rcases hkind with rfl | rfl <;> simp [Document.strayWarning, htype]
  have habout : isAboutChain (Component.Problem.withoutIf kind).message = true := by
    rcases hkind with rfl | rfl <;> simp [isAboutChain]
  have hadded : aboutChains (w.warn (.withoutIf kind) (x.document.node id).span).diagnostics =
      aboutChains w.diagnostics ++ [x.document.strayWarning id] := by
    simp [aboutChains, Walk.warn, hwarning, Diagnostic.warning, habout]
  refine ⟨⟨rfl, 0, ?_, by simp⟩, ?_⟩
  · rw [add_zero]
    rfl
  · rw [hadded, Multiset.map_singleton]
    rfl

/-- **The walk gathers** the chains of conditions and the blocks that continue none. -/
theorem account (x : WalkContext) :
    Walk.Account x chainTally fun w w' loose f => w.Gathers x w' loose f where
  outer h := h.chains.outer
  quiet := quiet
  trans := trans
  popFrame h := ⟨h.chains.popFrame, h.warnings⟩
  forget h hinner := ⟨h.chains.forget hinner, h.warnings⟩
  loop h reference header := ⟨h.chains.spot rfl reference, h.warnings⟩
  slot h reference := ⟨h.chains.spot rfl reference, h.warnings⟩
  chain hbuilds h reference := h.conditional hbuilds reference
  stray htype hkind w := stray w htype hkind
  call _ h reference := by
    rw [chainTally, zero_add]
    exact ⟨h.chains.spot rfl reference, h.warnings⟩
  text _ w := quiet (walkText_quiet w _)
  noText _ := rfl
  gap _ _ _ := rfl

end Walk.Gathers

section Templates

variable {lang : Language} {d : Document}

/-- All conditionals of a component are compiled from the chains among the children that are compiled
with it. -/
def Component.Chained (x : WalkContext) (c : Component) : Prop :=
  Multiset.Rel x.Builds ↑((x.document.compiled c.root).flatMap x.document.chains) c.base.conditionals

/-- The nodes whose children are compiled with some component. -/
def Template.compiled (t : Template) (d : Document) : List Nat :=
  t.components.flatMap fun c => d.compiled c.root

/-- What holds of a template while components are added. -/
structure Template.Chained (t : Template) (x : WalkContext) (found : List Diagnostic) : Prop where
  options : t.options = x.options
  components : ∀ c ∈ t.components, c.Chained x
  warnings : (aboutChains found).Perm
    (((t.compiled x.document).flatMap x.document.strays).map x.document.strayWarning)

theorem sum_map_tallied (d : Document) (ids : List Nat) :
    (ids.map (d.tallied chainTally)).sum =
      ((↑(ids.flatMap d.chains), ↑(ids.flatMap d.strays)) : Found) := by
  have hchains : ∀ heads : List (List Nat), (heads.map chainTally.chain).sum = (↑heads, 0) := by
    intro heads
    induction heads with
    | nil => rfl
    | cons ids rest ih => rw [List.map_cons, List.sum_cons, ih]; simp [chainTally]
  have hstrays : ∀ ids : List Nat, (ids.map chainTally.stray).sum = (0, ↑ids) := by
    intro ids
    induction ids with
    | nil => rfl
    | cons id rest ih => rw [List.map_cons, List.sum_cons, ih]; simp [chainTally]
  have hown : ∀ p, d.tallied chainTally p = (↑(d.chains p), ↑(d.strays p)) := by
    intro p
    rw [Document.tallied, hchains, hstrays]
    simp [Document.called, chainTally]
  induction ids with
  | nil => rfl
  | cons id rest ih =>
      rw [List.map_cons, List.sum_cons, ih, hown]
      rfl

namespace Template.Chained

variable {t : Template} {x : WalkContext} {found : List Diagnostic}

/-- **A component** is added with its chains. -/
theorem addComponent (h : t.Chained x found) (hforest : x.document.Forest)
    (hfill : ∀ id, (x.document.node id).FillsGaps) {root : Nat} (hroot :
      (x.document.node root).type = if root = 0 then .document else .fragment)
    (name : String) (isDefault : Bool) :
    (t.addComponent x.lang x.document root name isDefault).1.Chained x
      (found ++ (t.addComponent x.lang x.document root name isDefault).2) := by
  have hname := Template.root_analyzed x.lang t x.document root name isDefault
  obtain ⟨hbase, hnested, -⟩ := t.analyzed_eq x.lang x.document root name isDefault
  rw [Template.addComponent_eq, h.options]
  generalize t.analyzed x.lang x.document root name isDefault = c at hname hbase hnested ⊢
  have hwalk := (Walk.Gathers.account x).walkComponent hforest hfill ⟨c, t.imports, []⟩
    (by rw [hname]; exact hroot)
  have hkeeps : (walkComponent x ⟨c, t.imports, []⟩).component.root = root :=
    (Component.root_of_outline (outline_walkComponent x _)).trans hname
  rw [sum_map_tallied] at hwalk
  obtain ⟨⟨houter, added, hadded, hbuilt⟩, hwarnings⟩ := hwalk
  generalize walkComponent x ⟨c, t.imports, []⟩ = w at houter hadded hwarnings hkeeps ⊢
  have hinner : w.component.nested = [] := by
    have hlength := congrArg List.length houter
    simp only [Component.stack, hnested, List.length_tail, List.length_append, List.length_cons,
      List.length_nil] at hlength
    exact List.eq_nil_of_length_eq_zero (by omega)
  have hconditionals : w.component.base.picked SpotKind.branches? = added := by
    have hempty : (Walk.frame ⟨c, t.imports, []⟩).picked SpotKind.branches? = 0 := by
      simp only [Walk.frame, Component.frame, hnested, hbase]
      rfl
    rw [hempty, zero_add] at hadded
    simpa only [Walk.frame, Component.frame, hinner, List.headD_nil] using hadded
  refine ⟨rfl, ?_, ?_⟩
  · intro e he
    rcases List.mem_append.mp he with he | he
    · exact h.components e he
    · obtain rfl := List.mem_singleton.mp he
      rw [Component.Chained, hkeeps]
      change Multiset.Rel x.Builds _ (w.component.base.picked SpotKind.branches?)
      rw [hconditionals]
      simpa [hname] using hbuilt
  · have hcompiled : Template.compiled
        { t with imports := w.imports, components := t.components ++ [w.component] } x.document =
          t.compiled x.document ++ x.document.compiled root := by
      simp [Template.compiled, hkeeps]
    have hmore : (aboutChains w.diagnostics).Perm
        (((x.document.compiled root).flatMap x.document.strays).map x.document.strayWarning) := by
      rw [← Multiset.coe_eq_coe, hwarnings, hname]
      simp [aboutChains]
    have hall : aboutChains (found ++ w.diagnostics) = aboutChains found ++ aboutChains w.diagnostics :=
      List.filter_append _ _
    change (aboutChains (found ++ w.diagnostics)).Perm ((((Template.compiled
      { t with imports := w.imports, components := t.components ++ [w.component] }
      x.document).flatMap x.document.strays)).map x.document.strayWarning)
    rw [hall, hcompiled, List.flatMap_append, List.map_append]
    exact h.warnings.append hmore

/-- A fragment adds its component, or an error that its name is taken. -/
theorem addFragment (h : t.Chained x found) (hforest : x.document.Forest)
    (hfill : ∀ id, (x.document.node id).FillsGaps) (hzero : (x.document.node 0).type = .document)
    (id : Nat) :
    (Template.addFragment x.lang x.document (t, found) id).1.Chained x
      (Template.addFragment x.lang x.document (t, found) id).2 := by
  rcases t.addFragment_cases x.lang x.document found id with
    ⟨-, hstep⟩ | ⟨name, hfragment, ⟨-, hstep⟩ | ⟨-, hstep⟩⟩
  · rw [hstep]
    exact h
  · rw [hstep]
    refine ⟨h.options, h.components, ?_⟩
    have hother : isAboutChain (duplicateError x.document (id, name)).message = false :=
      isAboutChain_of_ne (p := .duplicate name) (by simp)
    have hnone : aboutChains [duplicateError x.document (id, name)] = [] := by
      simp [aboutChains, hother]
    have hall : aboutChains (found ++ [duplicateError x.document (id, name)]) = aboutChains found := by
      rw [aboutChains, List.filter_append]
      exact (congrArg _ hnone).trans (List.append_nil _)
    rw [hall]
    exact h.warnings
  · rw [hstep]
    have htype := (Document.fragment?_eq_some_iff.mp hfragment).2.1
    have hne : id ≠ 0 := by
      rintro rfl
      simp [hzero] at htype
    dsimp only
    exact h.addComponent hforest hfill (by rw [if_neg hne, htype]) name false

end Template.Chained

/-- **All components** of a document, with their chains. -/
theorem Template.addDocument_chained (x : WalkContext) (hforest : x.document.Forest)
    (hfill : ∀ id, (x.document.node id).FillsGaps) (hzero : (x.document.node 0).type = .document) :
    (({ options := x.options } : Template).addDocument x.lang x.document).1.Chained x
      (({ options := x.options } : Template).addDocument x.lang x.document).2 := by
  have hfold : ∀ (ids : List Nat) (s : Template × List Diagnostic), s.1.Chained x s.2 →
      (ids.foldl (Template.addFragment x.lang x.document) s).1.Chained x
        (ids.foldl (Template.addFragment x.lang x.document) s).2 := by
    intro ids
    induction ids with
    | nil => exact fun s hs => hs
    | cons id rest ih => exact fun s hs => ih _ (hs.addFragment hforest hfill hzero id)
  have hempty : ({ options := x.options } : Template).Chained x [] :=
    ⟨rfl, by simp, by simp [aboutChains, Template.compiled]⟩
  have hstart := hempty.addComponent hforest hfill (by rw [hzero, if_pos rfl]) x.options.name true
  rw [List.nil_append] at hstart
  exact hfold x.document.walk _ hstart

end Templates

section ParseTemplate

variable {lang : Language} {o : Options} {source : String}

/-- A node that is no tag has the type of its content. -/
theorem parseTemplate_type_eq (h : (parseTemplate lang o source).error = none) (id : Nat) :
    let n := (parseTemplate lang o source).document.node id
    n.isTag = true ∨ n.type = n.content.type := by
  refine runPasses_node (P := fun n => n.isTag = true ∨ n.type = n.content.type)
    (fun _ hn => hn) ?_ h (.inr (parse_fresh o.markup source id).type)
  intro p n n' hn hwork
  cases hwork with
  | typed | block | attributes => exact .inl rfl
  | script | style => exact hn
  | text htype hraw parts => exact .inr htype

theorem parseTemplate_fillsGaps (h : (parseTemplate lang o source).error = none) (id : Nat) :
    ((parseTemplate lang o source).document.node id).FillsGaps := by
  intro hfiller
  have htype := parseTemplate_type_eq h id
  generalize (parseTemplate lang o source).document.node id = n at hfiller htype
  by_cases hcomment : n.type = .comment
  · exact .inr hcomment
  · cases hcontent : n.content with
    | text t =>
        rcases htype with htag | htype
        · simp [Node.isTag, Node.element?, hcontent] at htag
        · exact .inl (by rw [htype, hcontent]; rfl)
    | document | element _ | comment _ => simp [isFiller, hcomment, hcontent] at hfiller

end ParseTemplate

theorem novel_sublist (taken : List String) (fs : List (Nat × String)) :
    (novel taken fs).Sublist fs := by
  induction fs generalizing taken with
  | nil => exact .slnil
  | cons f rest ih =>
      rw [novel]
      split
      · exact (ih taken).cons f
      · exact (ih _).cons_cons f

/-- **Every `else` finds its `if`.**  Let a document be made from a template that was read, and let
its components be built.  Their lists of siblings are the children of the nodes in `compiled`, each
of them once.  Each block of a condition among these is in one chain or continues none.  The
conditionals of a component are compiled from the chains, one from each and branch by branch, and one
warning is reported for each block that continues no chain. -/
theorem addDocument_chains (lang : Language) (o o' : Options) (source : String)
    (h : (parseTemplate lang o source).error = none) :
    let d := (parseTemplate lang o source).document
    let built := ({ options := o' } : Template).addDocument lang d
    let compiled := built.1.compiled d
    (∀ p, p ∈ compiled ↔ ∃ c ∈ built.1.components, d.Compiled c.root p) ∧ compiled.Nodup ∧
      (∀ p ∈ compiled, ((d.chains p).flatten ++ d.strays p).Perm
        ((d.children p).filter fun id => d.starts id || d.continues id)) ∧
      (∀ c ∈ built.1.components, c.Chained ⟨lang, o', d⟩) ∧
      (aboutChains built.2).Perm ((compiled.flatMap d.strays).map d.strayWarning) := by
  intro d built compiled
  have hforest : d.Forest := parseTemplate_forest h
  have hzero : (d.node 0).type = .document := parseTemplate_root h
  have hchained : built.1.Chained ⟨lang, o', d⟩ built.2 :=
    Template.addDocument_chained ⟨lang, o', d⟩ hforest (parseTemplate_fillsGaps h) hzero
  have hkeys : built.1.keys = _ := (Template.addDocument_run lang o' d).1
  have hroots : built.1.components.map Component.root =
      0 :: (novel [o'.name] d.fragments).map Prod.fst := by
    have hfst : built.1.components.map Component.root = built.1.keys.map Prod.fst := by
      simp [Template.keys]
    rw [hfst, hkeys]
    rfl
  have hsublist := (novel_sublist [o'.name] d.fragments).map Prod.fst
  have hfragment : ∀ {id}, id ∈ (novel [o'.name] d.fragments).map Prod.fst →
      (d.node id).type = .fragment := fun hid =>
    ((Document.mem_map_fst_fragments_iff (parseTemplate_namesFragment h)).mp
      (hsublist.subset hid)).2
  have hroot : ∀ c ∈ built.1.components, c.root = 0 ∨ (d.node c.root).type = .fragment := by
    intro c hc
    have hmem := List.mem_map_of_mem (f := Component.root) hc
    rw [hroots] at hmem
    exact (List.mem_cons.mp hmem).imp_right hfragment
  have hnodup : (built.1.components.map Component.root).Nodup := by
    rw [hroots]
    refine List.nodup_cons.mpr ⟨fun hmem => ?_, ?_⟩
    · have htype := hfragment hmem
      simp [hzero] at htype
    · exact hforest.nodup_walk.sublist (hsublist.trans d.fragments_sublist_walk)
  refine ⟨fun p => ?_, ?_, fun p _ => Document.perm_blocks (hforest.nodup p), hchained.components,
    hchained.warnings⟩
  · simp only [compiled, Template.compiled, List.mem_flatMap,
      Document.mem_compiled_iff hforest.forward]
  · refine List.nodup_flatMap.mpr
      ⟨fun c _ => Document.nodup_compiled hforest c.root, List.Pairwise.imp_of_mem ?_
        (List.pairwise_map.mp hnodup)⟩
    intro c c' hc hc' hne p hp hp'
    rw [Document.mem_compiled_iff hforest.forward] at hp hp'
    exact hne (hp.root_unique hforest (hroot c hc) (hroot c' hc') hp')

/-- A chain with blank text and a comment between its blocks, an `else` behind it, and an invocation
with blocks among its children. -/
def chainedTemplate : String :=
  "<if \x7ba\x7d>x</if> <!--c--><elseif \x7bb\x7d>y</elseif><else>z</else><else/>" ++
    "<Card><if \x7bc\x7d>u</if><else>v</else></Card>"

/-- The three blocks are one chain, and of the others two are reported. -/
theorem addDocument_chains_mixed :
    let d := (parseTemplate Script.javaScript {} chainedTemplate).document
    let built := ({ options := {} } : Template).addDocument Script.javaScript d
    d.chains 0 = [[1, 5, 7]] ∧ d.chains 10 = [[11]] ∧ built.1.compiled d = [0, 1, 5, 7, 10, 11] ∧
      (∀ c ∈ built.1.components, c.Chained ⟨Script.javaScript, {}, d⟩) ∧
      (aboutChains built.2).Perm [d.strayWarning 9, d.strayWarning 13] := by
  have hread :
      let d := (parseTemplate Script.javaScript {} chainedTemplate).document
      let built := ({ options := {} } : Template).addDocument Script.javaScript d
      (parseTemplate Script.javaScript {} chainedTemplate).error = none ∧
      d.chains 0 = [[1, 5, 7]] ∧ d.chains 10 = [[11]] ∧ built.1.compiled d = [0, 1, 5, 7, 10, 11] ∧
      [0, 1, 5, 7, 10, 11].flatMap d.strays = [9, 13] := by
    decide +kernel
  obtain ⟨herror, hchain, hinvoked, hcompiled, hstrays⟩ := hread
  obtain ⟨-, -, -, hchained, hwarnings⟩ :=
    addDocument_chains Script.javaScript {} {} chainedTemplate herror
  rw [hcompiled, hstrays] at hwarnings
  exact ⟨hchain, hinvoked, hcompiled, hchained, hwarnings⟩

/-- Among the children of an invocation an `else` right behind its `if` is reported. -/
theorem not_chained_in_invocation :
    let d := (parseTemplate Script.javaScript {}
      "<Card><if \x7ba\x7d>x</if><else>y</else></Card>").document
    (d.node 4).type = .block .elseBlock ∧ d.chainOf? 1 4 = some 2 ∧
      aboutChains (({ options := {} } : Template).addDocument Script.javaScript d).2 =
        [d.strayWarning 4] := by
  decide +kernel

end Stencil
