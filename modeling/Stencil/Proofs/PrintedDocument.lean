import Stencil.Proofs.RegularTrees

/-!
# Reading what a document prints

A document that was read without a problem is regular and tidy, and it is trimmed if the settings say
so.  It shows trees, and these could have been written; where they are also legible, what the document
prints is read without a problem as the same trees (`parse_reprint`).

What is written is not always legible.  The scanner ends a value without quotes at a blank and then
takes a slash for a part of it, but printing leaves the blank before the end of the tag out
(`not_parse_reprint_slash`).
-/

namespace Stencil.Markup

open Stencil.Text

namespace Builder

variable {b : Builder} {c : Context}

/-- Problems are only added. -/
theorem diagnostics_reportUnclosed (b : Builder) (ids : List Nat) :
    b.diagnostics <+: (b.reportUnclosed ids).diagnostics := by
  unfold reportUnclosed
  induction ids generalizing b with
  | nil => exact List.prefix_rfl
  | cons id rest ih =>
      rw [List.foldl_cons]
      exact (List.prefix_append b.diagnostics _).trans (ih (b.report _))

theorem diagnostics_step (c : Context) (b : Builder) (t : Token) :
    b.diagnostics <+: (b.step c t).diagnostics := by
  obtain ⟨lexeme, start, stop⟩ := t
  cases lexeme with
  | text text =>
      simp only [step, addText]
      split <;> exact List.prefix_rfl
  | comment content =>
      simp only [step, addComment]
      split <;> exact List.prefix_rfl
  | opening name attributes selfClosing =>
      simp only [step, openElement]
      split <;> exact List.prefix_rfl
  | raw text => exact List.prefix_rfl
  | closing name =>
      simp only [step, closeElement]
      split
      · split
        · exact List.prefix_rfl
        · exact List.prefix_append _ _
      · exact b.diagnostics_reportUnclosed _

theorem diagnostics_run (c : Context) (b : Builder) (tokens : List Token) :
    b.diagnostics <+: (tokens.foldl (Builder.step c) b).diagnostics := by
  induction tokens generalizing b with
  | nil => exact List.prefix_rfl
  | cons t rest ih => exact (b.diagnostics_step c t).trans (ih _)

theorem diagnostics_finish (c : Context) (b : Builder) (source : String) :
    b.diagnostics <+: (b.finish c source).2 := by
  have hunclosed := b.diagnostics_reportUnclosed b.stack
  simp only [finish]
  split
  · exact hunclosed
  · exact hunclosed.trans (List.prefix_append _ _)

end Builder

variable {s : Settings} {source : String}

/-- A source that is read without a problem is scanned without a finding. -/
theorem scan_clean (h : (parse s source).2 = []) : (scan source).2 = [] := by
  have hstart := (Builder.diagnostics_run ⟨s, .of source⟩
    { diagnostics := (scan source).2.map (Context.diagnostic ⟨s, .of source⟩) } (scan source).1).trans
    (Builder.diagnostics_finish ⟨s, .of source⟩ _ source)
  have hparse : (parse s source).2 = ((built s source).finish ⟨s, .of source⟩ source).2 := rfl
  rw [← built, ← hparse, h, List.prefix_nil, List.map_eq_nil_iff] at hstart
  exact hstart

/-- The tokens of a source without a finding make a regular document. -/
theorem built_regular (h : (scan source).2 = []) : (built s source).document.Regular s := by
  have hstart : ({ diagnostics := (scan source).2.map (Context.diagnostic ⟨s, .of source⟩) } :
      Builder).Regular ⟨s, .of source⟩ :=
    ⟨Builder.ordered_empty _, Document.regular_empty s⟩
  have hrun := ((scanFrom_tiled 0 source.toList).joinTexts).regular (scan_scanned h) hstart
    (by simp [Builder.Hosting])
  exact hrun.document

/-- **What is read without a problem is regular.** -/
theorem parse_regular (h : (parse s source).2 = []) : (parse s source).1.Regular s := by
  have hbuilt := built_regular (s := s) (scan_clean h)
  rw [parse_document]
  split
  · exact hbuilt.trimBlanks
  · exact hbuilt

theorem collapse_collapse (text : String) : collapse (collapse text) = collapse text := by
  simp only [collapse, String.toList_ofList]
  rw [collapseFrom_collapseFrom, Bool.or_self]

/-- Texts are collapsed when they are taken in, and so they stay as they are if they are taken in
again. -/
theorem built_tidy (s : Settings) (source : String) : (built s source).document.Tidy s := by
  intro p i _ text htext
  obtain ⟨text', before, own, after, heq, -, hfrom⟩ := (built_drawn s source).texts i _ htext
  obtain rfl := TextContent.raw.inj heq
  by_cases hkept : s.keepBlanks = true ∨ (built s source).document.Sheltered i
  · exact .inl hkept
  · right
    rw [hfrom.carried.collapsed hkept]
    exact collapse_collapse (textOf own)

/-- Cutting off blank text keeps a document tidy: what is left has the same surroundings. -/
theorem Document.Tidy.trims {b : Builder} {d : Document} (h : b.document.Tidy s) (hb : b.Linked)
    (htrims : b.document.Trims d) (hd : d.Linked)
    (hchildren : ∀ p, d.children p ⊆ b.document.children p) : d.Tidy s := by
  intro p i hi text htext
  have hold := hb.child p i (hchildren p hi)
  have hnew := hd.child p i hi
  have hsheltered : d.Sheltered i ↔ b.document.Sheltered i := by
    rw [sheltered_of_parent? hnew, sheltered_of_parent? hold,
      hb.sheltered_trims htrims (hb.isBlankText_host hold),
      Node.isPreformatted_congr (htrims.content p)]
  rw [htrims.content i] at htext
  rw [hsheltered]
  exact h p i (hchildren p hi) text htext

/-- **What is read is tidy.** -/
theorem parse_tidy (s : Settings) (source : String) : (parse s source).1.Tidy s := by
  refine (built_tidy s source).trims (built_linked s source) (trims_parse s source)
    (parse_linked s source) fun p => ?_
  rw [parse_document]
  split
  · exact (Document.keeps_trimBlanks _).children p
  · exact List.Subset.refl _

/-- **What is read is trimmed** if it is to be. -/
theorem parse_trimmed (htrim : s.trim = true) (h : (parse s source).2 = []) {ts : List Tree}
    (hshows : (parse s source).1.Shows ts) : Trimmed ts := by
  have hregular := built_regular (s := s) (scan_clean h)
  have hlinked := built_document_linked s source
  rw [parse_document, if_pos htrim] at hshows
  exact hshows.trimmed (fun _ => hlinked.trimBlanks_top) fun _ =>
    hregular.spaced.trimBlanks_clipped hlinked

/-- Nothing is above the root, and it is no preformatted element. -/
theorem parse_root_unsheltered (s : Settings) (source : String) :
    ¬ (((parse s source).1.node 0).isPreformatted = true ∨ (parse s source).1.Sheltered 0) := by
  rintro (hpre | ⟨p, habove, -⟩)
  · have hroot := (built_ordered s source).root
    rw [Node.isPreformatted_congr ((trims_parse s source).content 0)] at hpre
    cases hcontent : ((built s source).document.node 0).content with
    | element e => simp [hcontent, Content.type] at hroot
    | document | text | comment => simp [Node.isPreformatted, Node.element?, hcontent] at hpre
  · obtain ⟨q, hq, -⟩ := Document.above_iff.mp habove
    rw [(parse_linked s source).root] at hq
    simp at hq

/-- **Reading again what was read.**  A source that is read without a problem shows trees, and if
these are legible, then what the document prints is read without a problem and shows the same
trees. -/
theorem parse_reprint (h : (parse s source).2 = []) :
    ∃ ts, (parse s source).1.Shows ts ∧ (TreesLegible [] ts →
      (parse s (parse s source).1.print).2 = [] ∧ (parse s (parse s source).1.print).1.Shows ts) := by
  have hregular := parse_regular h
  obtain ⟨ts, hshows⟩ := hregular.exists_shows (parse_wellFormed s source).forward fun i => by
    rw [(parse_fresh s source i).params]
  refine ⟨ts, hshows, fun hlegible => ?_⟩
  have hscanned := hregular.trees_scanned hshows (hregular.beside 0)
  have hkept := (parse_tidy s source).trees_kept hregular (parse_linked s source) hshows
    (List.Subset.refl _) false (by simpa using parse_root_unsheltered s source)
  exact parse_trees (scan_legible hscanned hlegible hshows.toList_print) hshows.toList_print
    hscanned.sound hkept fun htrim => parse_trimmed htrim h hshows

/-- A text is read if neither markup nor a span in braces starts anywhere in it. -/
theorem readsText_of_tails {rest text : List Char}
    (h : ∀ tail ∈ text.tails, tail ≠ [] →
      startsMarkup (tail ++ rest) = false ∧ braceSpan (tail ++ rest) = none) :
    ReadsText rest text := by
  induction text with
  | nil => exact .nil
  | cons c text ih =>
      rw [List.tails_cons] at h
      obtain ⟨hfirst, hmore⟩ := List.forall_mem_cons.mp h
      obtain ⟨hmarkup, hopen⟩ := hfirst (by simp)
      exact .char hmarkup hopen (ih hmore)

/-- A paragraph whose tag has blanks where none are needed, with a closing tag that is ignored in its
text. -/
def looseSource : String := "<!doctype html>\n<p a = b/ c=>1 < 2 </br>\x7b</p >"

/-- Runs of blanks are collapsed and blank text is cut off. -/
def looseSettings : Settings := ⟨true, false, true, true, false, false⟩

/-- What is read from it. -/
def looseTrees : List Tree :=
  [.text "<!doctype html> ",
   .element ⟨"p", false, false,
      [⟨⟨none, "a", none⟩, some ("b/", .unquoted)⟩, ⟨⟨none, "c", none⟩, some ("", .unquoted)⟩], none⟩
      [.text "1 < 2 \x7b"]]

/-- The document that is made of it, node by node.  It is said at once, so that the source is read only
once to find it out. -/
private theorem looseSource_read :
    let d := (parse looseSettings looseSource).1
    (parse looseSettings looseSource).2 = [] ∧
    d.print = "<!doctype html> <p a=b/ c=>1 < 2 \x7b</p>" ∧
    d.size = 4 ∧ d.children 0 = [1, 2] ∧ d.children 2 = [3] ∧
    (d.node 1).content = .text (.raw "<!doctype html> ") ∧
    (d.node 2).content = .element ⟨"p", false, false,
      [{ name := ⟨none, "a", none⟩, value := .text "b/" .unquoted, raw := "a = b/" },
       { name := ⟨none, "c", none⟩, value := .text "" .unquoted, raw := "c=" }], none⟩ ∧
    (d.node 2).params.fragment = none ∧
    (d.node 3).content = .text (.raw "1 < 2 \x7b") := by
  decide +kernel

private theorem looseSource_shows : (parse looseSettings looseSource).1.Shows looseTrees := by
  obtain ⟨-, -, hsize, htop, hinside, hdoctype, htag, hfragment, htext⟩ := looseSource_read
  simp only [Document.Shows, looseTrees, htop, hsize, Document.HoldsAll, Document.Holds, hinside]
  exact ⟨⟨by decide, hdoctype⟩, ⟨by decide, ⟨_, htag, rfl, rfl, rfl, rfl, rfl⟩, hfragment,
    ⟨by decide, htext⟩, trivial⟩, trivial⟩

private theorem looseTrees_legible : TreesLegible [] looseTrees := by
  have hdoctype : ∀ rest, ReadsText rest "<!doctype html> ".toList := fun rest =>
    @ReadsText.declaration rest "doctype html".toList [' '] (by decide) (by decide)
      (.char (startsMarkup_of_ne (by decide) rest) (braceSpan_of_ne (by decide) rest) .nil)
  have hslash : ∀ more, Quote.Legible (' ' :: more) .unquoted "b/".toList := by
    intro more hend
    simp at hend
  have hnothing : ∀ more, Quote.Legible more .unquoted "".toList := fun more _ => by simp
  -- no markup starts at the angle bracket, and the brace is not closed
  have hbrace : ReadsText "</p>".toList "1 < 2 \x7b".toList := readsText_of_tails (by decide +kernel)
  simp only [looseTrees, TreesLegible, Tree.Legible, AttributesLegible, Option.some.injEq,
    Prod.mk.injEq, and_imp, and_true, List.flatMap_cons]
  refine ⟨hdoctype _, ⟨?_, ?_⟩, hbrace⟩
  · rintro _ _ rfl rfl
    exact hslash _
  · rintro _ _ rfl rfl
    exact hnothing _

/-- The blanks and the ignored tag are gone in what is printed, and it reads as before. -/
theorem parse_reprint_loose :
    (parse looseSettings looseSource).2 = [] ∧
    (parse looseSettings looseSource).1.print = "<!doctype html> <p a=b/ c=>1 < 2 \x7b</p>" ∧
    (parse looseSettings looseSource).1.Shows looseTrees ∧
    (parse looseSettings (parse looseSettings looseSource).1.print).2 = [] ∧
    (parse looseSettings (parse looseSettings looseSource).1.print).1.Shows looseTrees := by
  obtain ⟨hclean, hprint, -⟩ := looseSource_read
  obtain ⟨ts, hts, hreprint⟩ := parse_reprint hclean
  obtain rfl := Document.HoldsAll.unique looseSource_shows hts
  exact ⟨hclean, hprint, hts, hreprint looseTrees_legible⟩

/-- A value that ends in a slash is printed before the end of its tag, where the slash is read as a
part of the end. -/
theorem not_parse_reprint_slash :
    let d := (parse looseSettings "<a href=/x/ >t</a>").1
    (parse looseSettings "<a href=/x/ >t</a>").2 = [] ∧ d.print = "<a href=/x/>t</a>" ∧
      (parse looseSettings d.print).2 ≠ [] ∧
      d.elements.map (fun e => (e.name, e.selfClosing, e.attributes.map (·.value))) =
        [("a", false, [.text "/x/" .unquoted])] ∧
      (parse looseSettings d.print).1.elements.map
          (fun e => (e.name, e.selfClosing, e.attributes.map (·.value))) =
        [("a", true, [.text "/x" .unquoted])] := by
  decide +kernel

end Stencil.Markup
