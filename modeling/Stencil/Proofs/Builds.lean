import Stencil.Proofs.Twins

/-!
# Builds of one template

What two builds of a template have in common.  A client build and a server build of a document come
to components with the same markup, the same references and the same hashes, which is what the
client relies on when it takes over markup from the server; without scripts that are for one target
only they come to the same components (`addDocument_targets`).  Builds that differ in the positions
they ask for come to the same code, the same styles and the same problems (`compile_position`).

Both follow from comparing a build with one of the document without its positions
(`Template.addDocument_twins`).
-/

namespace Stencil

open Stencil.Markup Stencil.Render Stencil.Source
open Stencil.Script (Expression Language)

variable {same : Prop} {d : Document} {o o' : Options}

namespace Component

variable {c : Component}

/-- The nodes below a node do not depend on positions. -/
theorem nodesBelow_bare (d : Document) (levels id : Nat) :
    nodesBelow d.bare levels id = nodesBelow d levels id := by
  induction levels generalizing id with
  | zero => rfl
  | succ levels ih =>
      simp only [nodesBelow, Document.children_bare, Document.node_bare, Node.type_bare, ih]

/-- The nodes of a component do not depend on positions. -/
theorem nodes_bare (c : Component) (d : Document) : c.nodes d.bare = c.nodes d := by
  simp only [nodes, nodesBelow_bare, Document.size_bare]

/-- What is below a walked node is walked. -/
theorem mem_walk_of_mem_nodesBelow (hd : d.Forward) {levels id i : Nat} (hid : id ∈ d.walk)
    (hi : i ∈ nodesBelow d levels id) : i ∈ d.walk := by
  induction levels generalizing id with
  | zero => simp [nodesBelow] at hi
  | succ levels ih =>
      obtain ⟨child, hchild, hi⟩ := List.mem_flatMap.mp hi
      have hwalk := Document.mem_walk_of_child hd hid hchild
      split at hi
      · rw [List.mem_singleton.mp hi]
        exact hwalk
      · rcases List.mem_cons.mp hi with rfl | hi
        · exact hwalk
        · exact ih hwalk hi

/-- The nodes of a component are attached if its root is. -/
theorem mem_walk_of_mem_nodes (hd : d.Forward) (hroot : c.root ∈ d.walk) {i : Nat}
    (hi : i ∈ c.nodes d) : i ∈ d.walk := by
  rcases List.mem_append.mp hi with hi | hi
  · split at hi
    · simp at hi
    · rw [List.mem_singleton.mp hi]
      exact hroot
  · exact mem_walk_of_mem_nodesBelow hd hroot hi

/-- The names assigned in a node do not depend on positions. -/
theorem assignedIn_bare (n : Node) (t : Target) : assignedIn n.bare t = assignedIn n t := by
  have hscript : scriptOf n.bare t = scriptOf n t := rfl
  have hassigned : ∀ a : Attribute, assignedBy a.bare = assignedBy a := fun _ => rfl
  simp only [assignedIn, hscript, Node.element?_bare]
  cases n.element? with
  | none => rfl
  | some e => simp [List.flatMap_map, hassigned]

/-- The names assigned in a node depend on the target by its script only. -/
theorem assignedIn_congr {n : Node} {t t' : Target} (h : scriptOf n t = scriptOf n t') :
    assignedIn n t = assignedIn n t' := by
  simp only [assignedIn, h]

/-- The declared variables, once a script has been taken in. -/
def declaredWith (found : List String) (script : Option Script.Parts) : List String :=
  match script with
  | some parts => unite found parts.declared
  | none => found

/-- The nodes that a component is analyzed by. -/
def ownNodes (c : Component) (d : Document) : List Nat :=
  (c.nodes d).filter fun id => (d.node id).type != .fragment || id == c.root

/-- The analysis of a component, written out. -/
theorem analyze_eq (c : Component) (d : Document) (t : Target) :
    c.analyze d t =
      let declared := (c.ownNodes d).foldl
        (fun found id => declaredWith found (scriptOf (d.node id) t)) c.declared
      let assigned := (c.ownNodes d).flatMap fun id => assignedIn (d.node id) t
      { c with
        declared
        updated := declared.filter assigned.contains
        style := ⟨c.style.blocks ++ (c.ownNodes d).flatMap fun id => styleOf (d.node id)⟩ } := by
  simp only [analyze, List.foldl_map, List.flatMap_map]
  rfl

/-- The analysis of a component does not depend on positions. -/
theorem analyze_bare (c : Component) (d : Document) (t : Target) :
    c.analyze d.bare t = c.analyze d t := by
  have hscript : ∀ n : Node, scriptOf n.bare t = scriptOf n t := fun _ => rfl
  have hstyle : ∀ n : Node, styleOf n.bare = styleOf n := fun _ => rfl
  simp only [analyze_eq, ownNodes, nodes_bare, Document.node_bare, Node.type_bare, hscript, hstyle,
    assignedIn_bare]

/-- The analysis of a component asks the target for nothing but the scripts that run. -/
theorem analyze_target {t t' : Target}
    (h : ∀ id ∈ c.nodes d, scriptOf (d.node id) t = scriptOf (d.node id) t') :
    c.analyze d t = c.analyze d t' := by
  have hown : ∀ id ∈ c.ownNodes d, scriptOf (d.node id) t = scriptOf (d.node id) t' :=
    fun id hid => h id (List.mem_of_mem_filter hid)
  have hdeclared := List.foldl_ext (fun found id => declaredWith found (scriptOf (d.node id) t))
    (fun found id => declaredWith found (scriptOf (d.node id) t')) c.declared
    fun found id hid => by rw [hown id hid]
  have hassigned : (c.ownNodes d).flatMap (fun id => assignedIn (d.node id) t) =
      (c.ownNodes d).flatMap fun id => assignedIn (d.node id) t' :=
    List.flatMap_congr fun id hid => assignedIn_congr (hown id hid)
  simp only [analyze_eq, hdeclared, hassigned]

/-- What the target decides leaves no imprint. -/
theorem imprint_analyze (c : Component) (d : Document) (t t' : Target) :
    (c.analyze d t).imprint = (c.analyze d t').imprint := rfl

end Component

namespace Template

/-- Two templates that have come equally far, made from a document and from the document without its
positions. -/
structure Twins (same : Prop) (d : Document) (t t' : Template) : Prop where
  options : t.options.Twins same d t'.options
  imprints : t.components.map Component.imprint = t'.components.map Component.imprint
  components : same → t.components = t'.components
  imports : same → t.imports = t'.imports
  styles : t.styles = t'.styles

/-- The analysis keeps the root. -/
theorem root_analyzed (lang : Language) (t : Template) (d : Document) (root : Nat) (name : String)
    (isDefault : Bool) : (t.analyzed lang d root name isDefault).root = root := by
  simp only [analyzed, withStyleHash]
  split <;> rfl

/-- What adding a component changes. -/
theorem addComponent_eq (lang : Language) (t : Template) (d : Document) (root : Nat) (name : String)
    (isDefault : Bool) :
    t.addComponent lang d root name isDefault =
      let c := ({ name, root, isDefault } : Component).analyze d t.options.target
      let w := walkComponent ⟨lang, t.options, d⟩
        { component := t.analyzed lang d root name isDefault, imports := t.imports }
      ({ t with
          imports := w.imports, components := t.components ++ [w.component],
          styles := (t.withStyleHash lang c).2.styles }, w.diagnostics) := by
  obtain ⟨styles, hstyles⟩ := t.exists_styles_withStyleHash lang
    (({ name, root, isDefault } : Component).analyze d t.options.target)
  simp only [Template.addComponent, hstyles]
  rfl

namespace Twins

variable {t t' : Template}

/-- Empty templates with options that are twins are twins. -/
theorem start (h : o.Twins same d o') : Twins same d { options := o } { options := o' } :=
  ⟨h, rfl, fun _ => rfl, fun _ => rfl, rfl⟩

/-- Twins give a style the same digest and stay twins. -/
theorem registerStyle (h : t.Twins same d t') (digest : String → String) (css : String) :
    (t.registerStyle digest css).1 = (t'.registerStyle digest css).1 ∧
      (t.registerStyle digest css).2.styles =
        (t'.registerStyle digest css).2.styles := by
  have hmin : t.minLength = t'.minLength := by rw [minLength, minLength, h.options.css]
  have hmax : t.maxLength = t'.maxLength := by rw [maxLength, maxLength, h.options.css, hmin]
  simp only [Template.registerStyle, hmin, hmax, h.styles]
  split
  · exact ⟨rfl, rfl⟩
  · exact ⟨rfl, h.styles⟩

/-- The style of a component gets the same hash. -/
theorem withStyleHash (h : t.Twins same d t') (lang : Language) {c c' : Component}
    (himprint : c.imprint = c'.imprint)
    (hsame : same → c = c') :
    ((t.withStyleHash lang c).1.imprint = (t'.withStyleHash lang c').1.imprint ∧
      (same → (t.withStyleHash lang c).1 = (t'.withStyleHash lang c').1)) ∧
      (t.withStyleHash lang c).2.styles = (t'.withStyleHash lang c').2.styles := by
  have htext : c.styleText = c'.styleText := by
    simpa only [Component.styleText, Component.imprint] using congrArg Component.styleText himprint
  obtain ⟨hhash, hstyles⟩ := h.registerStyle (Style.contentHash lang.hash) c'.styleText
  by_cases hempty : c'.styleText.isEmpty = true
  · simp only [Template.withStyleHash, htext, if_pos hempty]
    exact ⟨⟨himprint, hsame⟩, h.styles⟩
  · simp only [Template.withStyleHash, htext, if_neg hempty, hhash]
    refine ⟨⟨?_, fun hs => by rw [hsame hs]⟩, hstyles⟩
    have hhashed : ∀ hash : String × Bool, _ := fun hash =>
      congrArg (fun c : Component => { c with
        longerHashes := if hash.2 then c.longerHashes ++ [hash.1] else c.longerHashes
        styleHash := some hash.1 }) himprint
    exact hhashed (t'.registerStyle (Style.contentHash lang.hash) c'.styleText).1

/-- The components of twins are analyzed alike. -/
theorem analyzed (h : t.Twins same d t') (lang : Language) (hd : d.Forward) {root : Nat}
    (hroot : root ∈ d.walk)
    (name : String) (isDefault : Bool) :
    ((t.analyzed lang d root name isDefault).imprint =
        (t'.analyzed lang d.bare root name isDefault).imprint ∧
      (same → t.analyzed lang d root name isDefault = t'.analyzed lang d.bare root name isDefault)) ∧
      (t.withStyleHash lang (({ name, root, isDefault } : Component).analyze d
          t.options.target)).2.styles =
        (t'.withStyleHash lang (({ name, root, isDefault } : Component).analyze d.bare
          t'.options.target)).2.styles := by
  have hscripts : same → ∀ id ∈ ({ name, root, isDefault } : Component).nodes d,
      Component.scriptOf (d.node id) t.options.target =
        Component.scriptOf (d.node id) t'.options.target := by
    intro hs id hid
    have hwalk := Component.mem_walk_of_mem_nodes hd hroot hid
    simp only [Component.scriptOf]
    by_cases htype : (d.node id).type = .script
    · rw [h.options.scripts hs id hwalk htype]
    · simp [htype]
  simp only [Template.analyzed, Component.analyze_bare]
  exact h.withStyleHash lang (Component.imprint_analyze _ d _ _) fun hs =>
    Component.analyze_target (hscripts hs)

/-- **One step.**  A component is added to twins. -/
theorem addComponent (h : t.Twins same d t') (hd : d.Forward) (lang : Language) {root : Nat}
    (hroot : root ∈ d.walk) (name : String) (isDefault : Bool) :
    (t.addComponent lang d root name isDefault).1.Twins same d
        (t'.addComponent lang d.bare root name isDefault).1 ∧
      (t.addComponent lang d root name isDefault).2.map Diagnostic.bare =
        (t'.addComponent lang d.bare root name isDefault).2.map Diagnostic.bare := by
  obtain ⟨⟨himprint, hsame⟩, hstyles⟩ := h.analyzed lang hd hroot name isDefault
  have hcontext : WalkContext.Twins same ⟨lang, t.options, d⟩ ⟨lang, t'.options, d.bare⟩ :=
    ⟨rfl, h.options, rfl, hd⟩
  have hstart : Walk.Twins same
      { component := t.analyzed lang d root name isDefault, imports := t.imports }
      { component := t'.analyzed lang d.bare root name isDefault, imports := t'.imports } := by
    constructor
    all_goals dsimp only
    exacts [himprint, hsame, h.imports]
  have hwalked : (t.analyzed lang d root name isDefault).root ∈ d.walk := by
    rw [root_analyzed]
    exact hroot
  have hwalk := walkComponent_twins hstart hcontext hwalked
  simp only [addComponent_eq]
  generalize walkComponent ⟨lang, t.options, d⟩ _ = w at hwalk ⊢
  generalize walkComponent ⟨lang, t'.options, d.bare⟩ _ = w' at hwalk ⊢
  refine ⟨⟨h.options, ?_, fun hs => ?_, hwalk.imports, hstyles⟩, hwalk.diagnostics⟩
  · simp only [List.map_append, h.imprints, List.map_cons, hwalk.imprint]
  · simp only [h.components hs, hwalk.component hs]

/-- Twins find components under the same names. -/
theorem isSome_component? (h : t.Twins same d t') (name : String) :
    (t.component? name).isSome = (t'.component? name).isSome := by
  have hany : ∀ t : Template, (t.component? name).isSome =
      (t.components.map Component.imprint).any (·.name == name) := by
    intro t
    rw [Bool.eq_iff_iff, component?, List.find?_isSome]
    simp [Component.imprint]
  rw [hany, hany, h.imprints]

/-- Twins stay twins under a fragment and warn alike. -/
theorem addFragment (h : t.Twins same d t') (hd : d.Forward) (lang : Language)
    {found found' : List Diagnostic} {id : Nat}
    (hfound : found.map Diagnostic.bare = found'.map Diagnostic.bare) (hid : id ∈ d.walk) :
    (Template.addFragment lang d (t, found) id).1.Twins same d
        (Template.addFragment lang d.bare (t', found') id).1 ∧
      (Template.addFragment lang d (t, found) id).2.map Diagnostic.bare =
        (Template.addFragment lang d.bare (t', found') id).2.map Diagnostic.bare := by
  simp only [Template.addFragment, Document.node_bare, Node.type_bare, Node.params_bare,
    h.isSome_component?]
  split
  · next name _ _ =>
      split
      · refine ⟨h, ?_⟩
        simp only [List.map_append, hfound]
        rfl
      · obtain ⟨hadded, hmore⟩ := h.addComponent hd lang hid name false
        dsimp only
        refine ⟨hadded, ?_⟩
        simp only [List.map_append, hfound, hmore]
  · exact ⟨h, hfound⟩

end Twins

/-- **Two builds.**  A template that is filled from a document and one that is filled from the
document without its positions are twins. -/
theorem addDocument_twins (h : o.Twins same d o') (hd : d.Forward) (lang : Language) :
    (({ options := o } : Template).addDocument lang d).1.Twins same d
        (({ options := o' } : Template).addDocument lang d.bare).1 ∧
      (({ options := o } : Template).addDocument lang d).2.map Diagnostic.bare =
        (({ options := o' } : Template).addDocument lang d.bare).2.map Diagnostic.bare := by
  have hrun : ∀ (ids : List Nat), (∀ id ∈ ids, id ∈ d.walk) →
      ∀ s s' : Template × List Diagnostic,
        s.1.Twins same d s'.1 ∧ s.2.map Diagnostic.bare = s'.2.map Diagnostic.bare →
        (ids.foldl (addFragment lang d) s).1.Twins same d
            (ids.foldl (addFragment lang d.bare) s').1 ∧
          (ids.foldl (addFragment lang d) s).2.map Diagnostic.bare =
            (ids.foldl (addFragment lang d.bare) s').2.map Diagnostic.bare := by
    intro ids
    induction ids with
    | nil => exact fun _ _ _ hs => hs
    | cons id rest ih =>
        rintro hids s s' ⟨htwins, hfound⟩
        obtain ⟨hid, hrest⟩ := List.forall_mem_cons.mp hids
        exact ih hrest _ _ (htwins.addFragment hd lang hfound hid)
  have hroot : 0 ∈ d.walk := List.mem_cons_self
  simp only [addDocument, Document.walk_bare, ← h.name]
  exact hrun d.walk (fun _ hid => hid) _ _ ((Twins.start h).addComponent hd lang hroot o.name true)

end Template

/-- The components of a document for a target. -/
def Template.built (lang : Language) (o : Options) (d : Document) (t : Target) : List Component :=
  (({ options := { o with target := t } } : Template).addDocument lang d).1.components

/-- A build for any target is a twin of the server build of the document without its positions. -/
theorem Template.built_twins (hd : d.Forward) (lang : Language) (o : Options) (t : Target)
    (hscripts : same → ∀ id ∈ d.walk, (d.node id).type = .script →
      (d.node id).params.target = none) :
    (Template.built lang o d t).map Component.imprint =
        (Template.built lang o d.bare .server).map Component.imprint ∧
      (same → Template.built lang o d t = Template.built lang o d.bare .server) := by
  have hoptions : Options.Twins same d { o with target := t } { o with target := .server } := by
    refine ⟨rfl, rfl, fun hs id hid htype => ?_⟩
    simp [hscripts hs id hid htype, runsOn]
  obtain ⟨htwins, -⟩ := Template.addDocument_twins hoptions hd lang
  exact ⟨htwins.imprints, htwins.components⟩

/-- **The markup does not depend on the target.**  Whatever the scripts, the client build and the
server build of a template have the same components in the same order, with the same hashes of their
styles, the same number of references and the same markup.  If no script is for one target only,
they are the same, with all their frames. -/
theorem addDocument_targets (lang : Language) (o : Options) (source : String) :
    let d := (parseTemplate lang o source).document
    ((Template.built lang o d .client).map fun c =>
        (c.name, c.root, c.styleHash, c.references, c.base.markup)) =
        ((Template.built lang o d .server).map fun c =>
          (c.name, c.root, c.styleHash, c.references, c.base.markup)) ∧
      ((∀ id ∈ d.walk, (d.node id).type = .script → (d.node id).params.target = none) →
        Template.built lang o d .client = Template.built lang o d .server) := by
  intro d
  have hd : d.Forward := (parseTemplate_wellFormed lang o source).forward
  clear_value d
  have hreadout : ∀ cs : List Component,
      (cs.map fun c => (c.name, c.root, c.styleHash, c.references, c.base.markup)) =
        (cs.map Component.imprint).map fun c =>
          (c.name, c.root, c.styleHash, c.references, c.base.blocks.headD {}) := by
    intro cs
    rw [List.map_map]
    rfl
  constructor
  · have hclient := (Template.built_twins hd lang o .client False.elim).1
    have hserver := (Template.built_twins hd lang o .server False.elim).1
    rw [hreadout, hreadout, hclient, hserver]
  · intro hscripts
    have hclient := (Template.built_twins hd lang o .client fun _ : True => hscripts).2 trivial
    have hserver := (Template.built_twins hd lang o .server fun _ : True => hscripts).2 trivial
    rw [hclient, hserver]

/-- A template with a script for both targets, an element with a handler and a text that can
vary. -/
def untargetedTemplate : String :=
  "<script>let n = 0</script><b @tap=\x7b() => n++\x7d>\x7bn\x7d</b>"

/-- Both builds of it are the same component, with a reference for the element and one for the
text. -/
theorem addDocument_targets_untargeted :
    let d := (parseTemplate Script.javaScript {} untargetedTemplate).document
    (∀ id ∈ d.walk, (d.node id).type = .script → (d.node id).params.target = none) ∧
      (Template.built Script.javaScript {} d .client).map Component.references = [2] ∧
      Template.built Script.javaScript {} d .client =
        Template.built Script.javaScript {} d .server := by
  intro d
  have hread : (∀ id ∈ d.walk, (d.node id).type = .script → (d.node id).params.target = none) ∧
      (Template.built Script.javaScript {} d .client).map Component.references = [2] := by
    decide +kernel
  exact ⟨hread.1, hread.2,
    (addDocument_targets Script.javaScript {} untargetedTemplate).2 hread.1⟩

-- a second script that is for the server only is a spot of the server build
example :
    let d := (parseTemplate Script.javaScript {}
      "<script>f()</script><p></p><script ssr>g()</script>").document
    ((Template.built Script.javaScript {} d .client).map fun c => c.base.spots.length) = [0] ∧
      ((Template.built Script.javaScript {} d .server).map fun c => c.base.spots.length) = [1] := by
  decide +kernel

/-- What the compiler makes of a template, without the spans of its problems. -/
def Compiled.bare (c : Compiled) : Compiled :=
  { c with diagnostics := c.diagnostics.map Diagnostic.bare }

namespace Template

variable {t t' : Template}

/-- A fresh template generates what it renders. -/
theorem generate_of_fresh (h : t.Fresh o) : t.generate.1 = t.render := by
  simp only [generate, h.output]

/-- A template is rendered from its components and its imports. -/
theorem render_congr (hcomponents : t.components = t'.components)
    (himports : t.imports = t'.imports) (hruntime : t.options.runtime = t'.options.runtime)
    (htarget : t.options.target = t'.options.target) (hcss : t.options.css = t'.options.css) :
    t.render = t'.render := by
  simp only [render, renderCode, hcomponents, himports, hruntime, htarget, hcss]

/-- What is generated from a document and the problems found then, without spans, are those of the
document without positions. -/
theorem generate_bare (hd : d.Forward) (lang : Language) (o : Options) (p : PositionOptions) :
    (({ options := o } : Template).addDocument lang d).1.generate.1 =
        (({ options := { o with position := p } } : Template).addDocument lang
          d.bare).1.generate.1 ∧
      (({ options := o } : Template).addDocument lang d).2.map Diagnostic.bare =
        (({ options := { o with position := p } } : Template).addDocument lang d.bare).2.map
          Diagnostic.bare := by
  have hstart : ∀ o : Options, ({ options := o } : Template).Fresh o := fun _ => ⟨rfl, rfl, by simp⟩
  have hfresh := (hstart o).addDocument lang d
  have hfresh' := (hstart { o with position := p }).addDocument lang d.bare
  have hoptions : Options.Twins True d o { o with position := p } :=
    ⟨rfl, rfl, fun _ _ _ _ => rfl⟩
  obtain ⟨htwins, hfound⟩ := addDocument_twins hoptions hd lang
  refine ⟨?_, hfound⟩
  rw [generate_of_fresh hfresh, generate_of_fresh hfresh']
  apply render_congr (htwins.components trivial) (htwins.imports trivial)
  · rw [hfresh.options, hfresh'.options]
  · rw [hfresh.options, hfresh'.options]
  · rw [hfresh.options, hfresh'.options]

end Template

/-- What the compiler makes of a template is what it makes of it if no positions are asked for. -/
theorem compile_bare (lang : Language) (o : Options) (source : String) :
    (compile lang o source).map Compiled.bare =
      (compile lang { o with position := {} } source).map Compiled.bare := by
  have hvalidate : ({ o with position := {} } : Options).validate = o.validate := rfl
  have hread := parseTemplate_bare lang o source
  have hforward := (parseTemplate_wellFormed lang o source).forward
  have hforward' := (parseTemplate_wellFormed lang { o with position := {} } source).forward
  simp only [compile, hvalidate]
  generalize parseTemplate lang o source = outcome at hread hforward ⊢
  generalize parseTemplate lang { o with position := {} } source = outcome' at hread hforward' ⊢
  have herror : outcome.error = outcome'.error := by
    simpa only [Passes.Outcome.bare] using congrArg Passes.Outcome.error hread
  have hdocument : outcome.document.bare = outcome'.document.bare :=
    congrArg Passes.Outcome.document hread
  have hdiagnostics : outcome.diagnostics.map Diagnostic.bare =
      outcome'.diagnostics.map Diagnostic.bare :=
    congrArg Passes.Outcome.diagnostics hread
  rw [herror]
  cases o.validate with
  | error f => rfl
  | ok u =>
      cases outcome'.error with
      | some e => rfl
      | none =>
          -- both builds are compared with that of the document without positions
          obtain ⟨hgenerate, hfound⟩ := Template.generate_bare hforward lang o {}
          obtain ⟨hgenerate', hfound'⟩ :=
            Template.generate_bare hforward' lang { o with position := {} } {}
          rw [← hdocument] at hgenerate' hfound'
          simp only [Except.map, Compiled.bare, List.map_append, hdiagnostics, hgenerate, hfound,
            hgenerate', hfound']

/-- **Positions change nothing.**  Whatever positions are asked for, the compiler fails with the
same error, or it comes to the same code, the same styles and the same problems, their spans apart.
The documents that are read are the same without their positions, before and after the passes. -/
theorem compile_position (lang : Language) (o : Options) (p p' : PositionOptions)
    (source : String) :
    (compile lang { o with position := p } source).map Compiled.bare =
        (compile lang { o with position := p' } source).map Compiled.bare ∧
      (parse { o with position := p : Options }.markup source).1.bare =
        (parse { o with position := p' : Options }.markup source).1.bare ∧
      (parseTemplate lang { o with position := p } source).bare =
        (parseTemplate lang { o with position := p' } source).bare := by
  refine ⟨?_, ?_, ?_⟩
  · rw [compile_bare, compile_bare lang { o with position := p' }]
  · have hread : ∀ p, (parse { o with position := p : Options }.markup source).1.bare =
        (parse o.markup.bare source).1 :=
      fun p => congrArg Prod.fst (parse_bare { o with position := p : Options }.markup source)
    rw [hread, hread]
  · rw [parseTemplate_bare, parseTemplate_bare lang { o with position := p' }]

end Stencil
