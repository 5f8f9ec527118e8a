import Stencil.Proofs.Builds
import Stencil.Proofs.Served
import Stencil.Proofs.Sheets

/-!
# What static markup is compiled to

The component of a static template has one text as its markup, and nothing is bound to it.  So its
module is known to the letter (`staticModule`), and its markup reads again as the served trees
(`compile_static`).
-/

namespace Stencil

open Stencil.Markup Stencil.Render Stencil.Source Stencil.Text
open Stencil.Script (Expression Language)

section Code

/-- The body of a render function without spots. -/
theorem Render.Client.body_of_spots (names : Reactive) {f : Frame} (h : f.spots = []) :
    Client.body names f =
      [.line ("const $node = $.template(" ++ f.markup.code ++ ");"), .line "return $node;"] := by
  match f with
  | .mk blocks spots isSealed =>
      obtain rfl : spots = [] := h
      simp [Client.body, Client.spotList]

/-- The code of a component without spots. -/
theorem Component.render_of_spots {c : Component} (hspots : c.base.spots = [])
    (hexports : c.exports = []) (hscript : c.script = none) :
    c.render .client = "export function " ++ c.name ++
      "($props = \x7b\x7d) \x7b\n  const $node = $.template(" ++ c.base.markup.code ++
        ");\n  return $node;\n\x7d" := by
  have hlines : ((Emitter.start 0).run (c.commands .client)).lines.filterMap Emitter.lineText =
      ["export function " ++ c.name ++ "($props = \x7b\x7d) \x7b",
        "  " ++ ("const $node = $.template(" ++ c.base.markup.code ++ ");"), "  return $node;",
        "\x7d"] := by
    simp [commands, hexports, hscript, renderBody_client, Client.body_of_spots _ hspots, indented,
      Emitter.run, Emitter.step, Emitter.printLine, Emitter.print, Emitter.lines, Emitter.start,
      Emitter.write, Emitter.newline, Emitter.deeper, Emitter.shallower, Emitter.setIndent,
      Emitter.isLineEmpty, Emitter.lineText]
  rw [Component.render, Emitter.source, hlines, ← String.toList_inj]
  simp [joinWith]

/-- One text of markup is a string literal. -/
theorem Render.Frame.code_markup_pushHtml (html : String) :
    (Frame.empty.pushHtml html).markup.code = quote html := by
  by_cases hempty : html = ""
  · rw [hempty]
    rfl
  · have hhtml : html.isEmpty = false := by simpa using hempty
    simp [Frame.pushHtml, hhtml, Frame.pushPiece, Frame.empty, Frame.isSealed, Frame.blocks,
      Frame.pushLast, Frame.markup, Block.push, Block.pushPiece, Block.code, Block.htmlOf?]

/-- The module of a template whose markup is the given text and is bound to nothing. -/
def staticModule (o : Options) (html : String) : String :=
  "import * as $ from \"" ++ o.runtime ++ "\";\n\nexport function " ++ o.name ++
    "($props = \x7b\x7d) \x7b\n  const $node = $.template(" ++ quote html ++
      ");\n  return $node;\n\x7d\n\nexport default " ++ o.name ++ ";\n"

variable {d : Document}

/-- The component of a document is made from plain nodes only, so it has no style. -/
theorem Component.style_analyze_of_plain (hforward : d.Forward)
    (hplain : ∀ id ∈ d.walk, (d.node id).Plain)
    (c : Component) (hroot : c.root = 0) (hstyle : c.style = ⟨[]⟩) (target : Target) :
    (c.analyze d target).style = ⟨[]⟩ := by
  simp only [Component.analyze, hstyle, List.nil_append, Style.Sheet.mk.injEq,
    List.flatMap_eq_nil_iff, List.mem_map, List.mem_filter]
  rintro n ⟨id, ⟨hid, -⟩, rfl⟩
  have hwalk := Component.mem_walk_of_mem_nodes hforward
    (hroot ▸ List.mem_cons_self : c.root ∈ d.walk) hid
  rcases (hplain id hwalk).type_cases with htype | htype | htype | htype <;>
    simp [Component.styleOf, htype]

/-- No component is named in a document of plain nodes. -/
theorem Template.addDocument_of_plain (lang : Language) (t : Template)
    (hplain : ∀ id ∈ d.walk, (d.node id).Plain) :
    t.addDocument lang d = t.addComponent lang d 0 t.options.name true := by
  have hnone : ∀ (ids : List Nat), (∀ id ∈ ids, (d.node id).Plain) →
      ∀ state, ids.foldl (addFragment lang d) state = state := by
    intro ids
    induction ids with
    | nil => exact fun _ _ => rfl
    | cons id rest ih =>
        intro hids state
        obtain ⟨hid, hrest⟩ := List.forall_mem_cons.mp hids
        have hskip : addFragment lang d state id = state := by
          rcases hid.type_cases with htype | htype | htype | htype <;> simp [addFragment, htype]
        rw [List.foldl_cons, hskip, ih hrest]
  exact hnone d.walk hplain _

/-- The component of a document before its markup is walked. -/
def rootComponent (o : Options) (d : Document) : Component :=
  ({ name := o.name, root := 0, isDefault := true } : Component).analyze d o.target

/-- **The template of static markup.**  Its only component has the served trees as its markup, and the
walk reports nothing. -/
theorem Template.addDocument_serves (lang : Language) {o : Options} {written : Document}
    {ts : List Tree} {affix : Bool} (hx : WalkContext.Serves ⟨lang, o, d⟩ written)
    (hsize : d.size = written.size) (hforward : d.Forward)
    (hplain : ∀ id ∈ d.walk, (d.node id).Plain) (hshows : written.Shows ts)
    (hwf : TreesWellFormed affix ts) (hstatic : TreesStatic ts) :
    ({ options := o } : Template).addDocument lang d =
      ({ options := o
         components :=
          [(rootComponent o d).pushHtml (String.ofList (treesChars (treesServed ts)))] }, []) := by
  have hstyle : (rootComponent o d).styleText = "" := by
    have hsheet := Component.style_analyze_of_plain hforward hplain
      { name := o.name, root := 0, isDefault := true } rfl rfl o.target
    rw [Component.styleText, rootComponent, hsheet]
    rfl
  have hwith : ({ options := o } : Template).withStyleHash lang (rootComponent o d) =
      (rootComponent o d, { options := o }) := by
    simp [withStyleHash, hstyle]
  have hdepth := Document.HoldsAll.depth_le hshows ∅ (by simp) (by simp)
  rw [Finset.card_empty, Nat.add_zero] at hdepth
  have hwalk : walkComponent ⟨lang, o, d⟩ { component := rootComponent o d, imports := {} } =
      Walk.html { component := rootComponent o d, imports := {} }
        (String.ofList (treesChars (treesServed ts))) := by
    have hinjected : injectedStyle o (rootComponent o d) = "" := by
      have hnone : (rootComponent o d).styleHash = none := rfl
      unfold injectedStyle
      rw [hnone]
      cases o.css.placement <;> rfl
    have hroot : ((rootComponent o d).root == 0) = true := rfl
    simp only [walkComponent, hinjected, Walk.html_empty, hroot, if_true]
    exact walkChildren_serves hx 0 ts hshows hwf hstatic _ (by omega) _ rfl
  rw [addDocument_of_plain lang _ hplain]
  have hanalyzed : ({ name := o.name, root := 0, isDefault := true } : Component).analyze d o.target =
      rootComponent o d := rfl
  simp only [addComponent, hanalyzed, hwith, hwalk]
  rfl

end Code

/-- The module of a template whose only component has one text as its markup. -/
theorem Template.renderCode_of_base {o : Options} (htarget : o.target = .client) {c : Component}
    {html : String} (hbase : c.base = Frame.empty.pushHtml html) (hexports : c.exports = [])
    (hscript : c.script = none) (hgenerated : c.generated = none) (hdefault : c.isDefault = true)
    (hname : c.name = o.name) :
    ({ options := o, components := [c] } : Template).renderCode = staticModule o html := by
  have hspots : c.base.spots = [] := by
    rw [hbase, Frame.spots_pushHtml]
    rfl
  have hrender := Component.render_of_spots hspots hexports hscript
  rw [hbase, hname, Frame.code_markup_pushHtml] at hrender
  have hcode : ({ options := o, components := [c] } : Template).renderCode =
      "import * as $ from \"" ++ o.runtime ++ "\";" ++ ("\n\n" ++ c.render .client) ++
        ("\n\nexport default " ++ o.name ++ ";") ++ "\n" := by
    unfold renderCode
    simp only [List.map_cons, List.map_nil, List.find?_cons, hdefault, hname, htarget,
      Component.generate, hgenerated, joinWith, String.intercalate_singleton, String.join_cons,
      String.join_nil, String.append_empty]
  rw [hcode, hrender]
  unfold staticModule
  apply String.toList_injective
  simp

/-- **Static templates compile to equivalent markup.**  Let trees be such that they can be read again
from their printed form, and such that nothing in them stands for code; let the options leave them as
they are (`hkept`, `htrimmed`), as they do where blanks and comments are kept and nothing is trimmed.
Then the printed trees compile without a problem for the browser, to a module whose only markup is the
served trees.  Nothing is bound to it, no node of it has a reference, and it reads without a problem as
the served trees: the trees themselves, but for double quotes around all values, double quotes in them
that are written out, and elements that do not close themselves. -/
theorem compile_static (lang : Language) {o : Options} {d : Document} {ts : List Tree}
    (hvalid : o.validate = .ok ()) (htarget : o.target = .client)
    (hkept : TreesKept o.markup false ts) (htrimmed : o.markup.trim = true → Trimmed ts)
    (hd : d.Shows ts) (hwf : TreesWellFormed o.markup.affix ts) (hstatic : TreesStatic ts) :
    let html := String.ofList (treesChars (treesServed ts))
    compile lang o d.print = .ok { js := staticModule o html, css := "", diagnostics := [] } ∧
      (∃ c, (filledTemplate lang o d.print).components = [c] ∧ c.base.spots = [] ∧
        c.references = 0) ∧
      (parse o.markup html).2 = [] ∧ (parse o.markup html).1.Shows (treesServed ts) := by
  intro html
  obtain ⟨hread, hshows⟩ := parse_trees (scan_print hd hwf) hd.toList_print hwf.sound hkept htrimmed
  obtain ⟨herror, hdiagnostics, hplain, hserves⟩ := parseTemplate_serves lang hread hshows hstatic
  have htree := parseTemplate_sameTree herror
  have htemplate := Template.addDocument_serves lang (o := o)
    ⟨htree.children, hserves⟩ htree.size (parseTemplate_wellFormed lang o d.print).forward hplain
    hshows hwf hstatic
  refine ⟨?_, ?_, ?_⟩
  · have hrender : ({ options := o, components := [(rootComponent o
        (parseTemplate lang o d.print).document).pushHtml html] } : Template).render =
        ⟨staticModule o html, ""⟩ := by
      have hcss : Template.renderStyles [] [(rootComponent o
          (parseTemplate lang o d.print).document).pushHtml html] = "" := rfl
      rw [Template.render, Template.renderCode_of_base htarget rfl rfl rfl rfl rfl rfl, hcss]
      cases o.css.placement <;> rfl
    unfold compile
    simp only [hvalid, herror, htemplate, hdiagnostics, Template.generate, List.append_nil]
    rw [hrender]
  · refine ⟨(rootComponent o (parseTemplate lang o d.print).document).pushHtml html, ?_,
      Frame.spots_pushHtml Frame.empty html, rfl⟩
    rw [filledTemplate, htemplate]
  · have hserved := hwf.served hstatic
    have hhtml : html.toList = treesChars (treesServed ts) := String.toList_ofList
    exact parse_trees (scan_trees hserved hhtml) hhtml hserved.sound hkept.served
      fun htrim => (htrimmed htrim).served

/-- Options under which markup is read as it is written. -/
def verbatimOptions : Options := { text := { whitespace := true, trim := false } }

/-- A paragraph with a quoted title, in which another element closes itself. -/
def plainTrees : List Tree :=
  [.element ⟨"p", false, false,
      [⟨⟨none, "title", none⟩, some ("a \"b\"", .single)⟩, ⟨⟨none, "hidden", none⟩, none⟩], none⟩
    [.text "Hi ", .element ⟨"b", true, true, [], none⟩ [], .comment " c "]]

/-- A document that shows them. -/
def plainDocument : Document :=
  { nodes := #[
      { Node.document with children := [1] },
      { Node.ofElement { name := "p", attributes := [
          { Attribute.plain "title" (.text "a \"b\"" .single) with raw := "" },
          { Attribute.plain "hidden" .empty with raw := "" }] } with children := [2, 3, 4] },
      Node.ofText "Hi ",
      Node.ofElement { name := "b", empty := true, selfClosing := true },
      Node.ofComment " c "]
    parents := #[none, some 0, some 1, some 1, some 1] }

private theorem plainDocument_shows : plainDocument.Shows plainTrees :=
  ⟨⟨by decide, ⟨_, rfl, rfl, rfl, rfl, rfl, rfl⟩, rfl, ⟨by decide, rfl⟩,
    ⟨by decide, ⟨_, rfl, rfl, rfl, rfl, rfl, rfl⟩, rfl, trivial⟩, ⟨by decide, rfl⟩, trivial⟩, trivial⟩

private theorem plainTrees_wellFormed : TreesWellFormed true plainTrees := by
  have hcomment : ¬ "-->".toList <:+: " c ".toList := by decide
  have htitle : Closed (· ≠ '\'') "a \"b\"".toList := closed_of_forall (by simp)
  have hb : Tag.WellFormed true ⟨"b", true, true, [], none⟩ :=
    ⟨⟨'b', [], rfl, by decide, by simp⟩, by decide, by simp, fun h => absurd h (by decide),
      fun _ => rfl⟩
  refine ⟨⟨⟨⟨'p', [], rfl, by decide, by simp⟩, by decide, ?_, fun h => absurd h (by decide),
    fun _ => rfl⟩, fun h => absurd h (by decide), ⟨by decide, closed_of_forall (by simp)⟩, by decide,
    ⟨hb, fun _ => rfl, trivial⟩, by decide, hcomment, by decide, trivial⟩, by decide, trivial⟩
  simp only [List.forall_mem_cons, List.not_mem_nil, false_imp_iff, implies_true, and_true]
  refine ⟨⟨by decide, List.all_eq_true.mp (by decide), by decide, fun h => absurd h (by decide), ?_⟩,
    ⟨by decide, List.all_eq_true.mp (by decide), by decide, fun h => absurd h (by decide), by simp⟩⟩
  rintro text quote ⟨⟩
  exact htitle

private theorem plainTrees_static : TreesStatic plainTrees := by
  have hb : Tag.Static ⟨"b", true, true, [], none⟩ :=
    ⟨by decide, by decide, by decide, by simp⟩
  have htext : '\x7b' ∉ "Hi ".toList := by decide
  refine ⟨⟨⟨by decide, by decide, by decide, ?_⟩, htext, ⟨hb, trivial⟩, trivial, trivial⟩, trivial⟩
  simp only [List.forall_mem_cons, List.not_mem_nil, false_imp_iff, implies_true, and_true]
  have hstart : 't' ∉ marks ∧ 'h' ∉ marks := by decide
  refine ⟨⟨by decide, rfl, rfl, ?_, ?_⟩, ⟨by decide, rfl, rfl, ?_, by simp⟩⟩
  · rintro c ⟨⟩
    exact hstart.1
  · rintro text quote ⟨⟩
    exact ⟨.inr rfl, by decide⟩
  · rintro c ⟨⟩
    exact hstart.2

/-- The quotes of the title are written out, and the inner element is closed by a tag. -/
theorem compile_static_plain :
    let o := verbatimOptions
    let html := "<p title=\"a &quot;b&quot;\" hidden>Hi <b></b><!-- c --></p>"
    plainDocument.print = "<p title='a \"b\"' hidden>Hi <b/><!-- c --></p>" ∧
      compile Script.javaScript o plainDocument.print =
        .ok { js := staticModule o html, css := "", diagnostics := [] } ∧
      (parse o.markup html).2 = [] ∧ (parse o.markup html).1.Shows (treesServed plainTrees) := by
  intro o html
  have hhtml : String.ofList (treesChars (treesServed plainTrees)) = html := by decide +kernel
  obtain ⟨hcompiled, -, hread⟩ := compile_static Script.javaScript (o := verbatimOptions)
    rfl rfl (treesKept_of_keepBlanks rfl rfl plainTrees false) (fun h => absurd h (by decide))
    plainDocument_shows plainTrees_wellFormed plainTrees_static
  rw [hhtml] at hcompiled hread
  exact ⟨by decide +kernel, hcompiled, hread⟩

/-- A break that closes itself. -/
def breakDocument : Document :=
  { nodes := #[{ Node.document with children := [1] },
      Node.ofElement { name := "br", empty := true, selfClosing := true }]
    parents := #[none, some 0] }

/-- A comment. -/
def commentDocument : Document :=
  { nodes := #[{ Node.document with children := [1] }, Node.ofComment "c"]
    parents := #[none, some 0] }

/-- Two things are lost: the slash of an element that is empty by its name, so that what is compiled
reads as an element that does not close itself, and comments if the options drop them. -/
theorem compile_static_loses :
    let slashed : List Tree := [.element ⟨"br", true, true, [], none⟩ []]
    let commented : List Tree := [.comment "c"]
    let o := verbatimOptions
    let o' : Options := { text := { whitespace := true, trim := false, comments := false } }
    (TreesWellFormed o.markup.affix slashed ∧ TreesStatic slashed ∧ breakDocument.Shows slashed ∧
      compile Script.javaScript o breakDocument.print =
        .ok { js := staticModule o "<br>", css := "", diagnostics := [] } ∧
      ¬ (parse o.markup "<br>").1.Shows slashed) ∧
    TreesWellFormed o'.markup.affix commented ∧ TreesStatic commented ∧
      commentDocument.Shows commented ∧
      compile Script.javaScript o' commentDocument.print =
        .ok { js := staticModule o' "", css := "", diagnostics := [] } ∧
      ¬ (parse o'.markup "").1.Shows commented := by
  intro slashed commented o o'
  have hbr : Tag.WellFormed true ⟨"br", true, true, [], none⟩ :=
    ⟨⟨'b', ['r'], rfl, by decide, List.all_eq_true.mp (by decide)⟩, by decide, by simp,
      fun h => absurd h (by decide), fun _ => rfl⟩
  have hcomment : ¬ "-->".toList <:+: "c".toList := by decide
  refine ⟨⟨⟨⟨hbr, fun _ => rfl, trivial⟩, by decide, trivial⟩,
    ⟨⟨⟨by decide, by decide, by decide, by simp⟩, trivial⟩, trivial⟩,
    ⟨⟨by decide, ⟨_, rfl, rfl, rfl, rfl, rfl, rfl⟩, rfl, trivial⟩, trivial⟩, by decide +kernel, ?_⟩,
    ⟨hcomment, by decide, trivial⟩, ⟨trivial, trivial⟩, ⟨⟨by decide, rfl⟩, trivial⟩,
    by decide +kernel, ?_⟩
  · intro hshows
    have hchildren : (parse o.markup "<br>").1.children 0 = [1] := by decide +kernel
    have hcontent : ((parse o.markup "<br>").1.node 1).element?.map Element.selfClosing =
        some false := by decide +kernel
    rw [Document.Shows, hchildren] at hshows
    simp only [slashed, Document.HoldsAll, Document.Holds] at hshows
    obtain ⟨⟨-, ⟨e, he, hbr⟩, -⟩, -⟩ := hshows
    have hself : e.selfClosing = true := hbr.selfClosing
    simp [Node.element?, he, hself] at hcontent
  · intro hshows
    have hchildren : (parse o'.markup "").1.children 0 = [] := by decide +kernel
    rw [Document.Shows, hchildren] at hshows
    exact hshows

end Stencil
