import Stencil.Proofs.TreeBuild
import Stencil.Proofs.Shape

/-!
# Markup round trip

Reading undoes printing: a document that shows well-formed trees is printed as a text that reads
without a problem as a document that shows the same trees.
-/

namespace Stencil.Markup

open Stencil.Text

/-- The tokens of written trees are those of the trees. -/
theorem scan_legible {affix : Bool} {source : String} {trees : List Tree}
    (h : TreesScanned affix trees) (hlegible : TreesLegible [] trees)
    (hsource : source.toList = treesChars trees) : scan source = (treesTokens 0 trees, []) := by
  have hread := scanJoined_trees trees h hlegible 0 (by simp [scanJoined, scanFrom, joinTexts])
  simp only [List.append_nil, scanJoined, scanFrom, joinTexts, ← hsource] at hread
  exact hread

/-- Printed well-formed trees are scanned into their tokens. -/
theorem scan_trees {affix : Bool} {source : String} {trees : List Tree}
    (h : TreesWellFormed affix trees) (hsource : source.toList = treesChars trees) :
    scan source = (treesTokens 0 trees, []) :=
  scan_legible h.scanned (h.legible []) hsource

/-- The tokens of a printed document are those of its trees. -/
theorem scan_print {affix : Bool} {d : Document} {trees : List Tree} (hd : d.Shows trees)
    (h : TreesWellFormed affix trees) : scan d.print = (treesTokens 0 trees, []) :=
  scan_trees h hd.toList_print

/-- The type that a node has before anything is found out about it. -/
def Content.type : Content → NodeType
  | .document => .document
  | .element _ => .element
  | .text _ => .text
  | .comment _ => .comment

/-- Nothing has been found out about the node yet. -/
structure Node.Fresh (n : Node) : Prop where
  type : n.type = n.content.type
  params : n.params = {}
  kinds : ∀ e ∈ n.element?, ∀ a ∈ e.attributes, a.kind = .plain

/-- A fresh node keeps the others fresh. -/
theorem Builder.fresh_add {b : Builder} (h : ∀ i, (b.document.node i).Fresh) {n : Node}
    (hn : n.Fresh) (i : Nat) : ((b.add n).document.node i).Fresh := by
  obtain ⟨children, hnode | hnode⟩ := Document.node_append_cases b.document b.parent n i
  · rw [Builder.add, hnode]
    exact ⟨(h i).type, (h i).params, (h i).kinds⟩
  · rw [Builder.add, hnode]
    exact ⟨hn.type, hn.params, hn.kinds⟩

/-- A change to a node that leaves it fresh leaves all so. -/
theorem Document.fresh_update {d : Document} (h : ∀ i, (d.node i).Fresh) {id : Nat} {f : Node → Node}
    (hf : (f (d.node id)).Fresh) (i : Nat) : ((d.update id f).node i).Fresh := by
  rcases d.node_update_cases id f i with hnode | ⟨rfl, hnode⟩
  · rw [hnode]
    exact h i
  · rw [hnode]
    exact hf

/-- A text that is added leaves the nodes fresh. -/
theorem Builder.fresh_addText (c : Context) {b : Builder} (h : ∀ i, (b.document.node i).Fresh)
    (text : String) (start stop : Nat) (i : Nat) :
    ((b.addText c text start stop).document.node i).Fresh := by
  simp only [Builder.addText]
  split
  · next last before hlast =>
      have htext : (b.document.node last).content.type = .text := by
        rw [Builder.content_of_lastText? hlast]
        rfl
      apply Document.fresh_update h
      exact ⟨by rw [(h last).type, htext]; rfl, (h last).params, by simp [Node.element?]⟩
  · exact Builder.fresh_add h ⟨rfl, rfl, by simp [Node.element?, Node.ofText]⟩ i

/-- Taking in a token adds and changes nodes, but finds nothing out about them. -/
theorem Builder.fresh_step (c : Context) {b : Builder} (h : ∀ i, (b.document.node i).Fresh)
    (t : Token) (i : Nat) : ((b.step c t).document.node i).Fresh := by
  obtain ⟨lexeme, start, stop⟩ := t
  cases lexeme with
  | text text => exact Builder.fresh_addText c h text start stop i
  | comment content =>
      simp only [Builder.step, Builder.addComment]
      split
      · exact Builder.fresh_add h ⟨rfl, rfl, by simp [Node.element?, Node.ofComment]⟩ i
      · exact h i
  | opening name attributes selfClosing =>
      simp only [Builder.step, Builder.openElement]
      have hnew : ({ Node.ofElement ⟨name, selfClosing || isVoid name, selfClosing,
          attributes.map (Builder.attributeOf c), none⟩ with
            position := c.position start stop } : Node).Fresh :=
        ⟨rfl, rfl, by simp [Node.element?, Node.ofElement, Builder.attributeOf]⟩
      split <;> exact Builder.fresh_add h hnew i
  | closing name =>
      simp only [Builder.step, Builder.closeElement]
      split
      · split <;> exact h i
      · next id outer _ =>
          rw [Builder.reportUnclosed_document]
          exact Document.fresh_update h ⟨(h id).type, (h id).params, (h id).kinds⟩ i
  | raw text =>
      apply Document.fresh_update h
      have hn := h b.parent
      unfold Node.mapElement
      split
      · next e he =>
          have hkinds := hn.kinds e (by simp [Node.element?, he])
          exact ⟨by rw [hn.type, he]; rfl, hn.params, by simpa [Node.element?] using hkinds⟩
      · exact hn

/-- A run leaves the nodes fresh. -/
theorem Builder.fresh_run (c : Context) {b : Builder} (h : ∀ i, (b.document.node i).Fresh)
    (tokens : List Token) (i : Nat) : ((tokens.foldl (Builder.step c) b).document.node i).Fresh := by
  induction tokens generalizing b with
  | nil => exact h i
  | cons t rest ih => exact ih (Builder.fresh_step c h t)

/-- **Reading undoes printing.**  If runs of blanks and comments are kept and nothing is trimmed, a
printed document reads without a problem as the same trees, about which nothing has been found out
yet. -/
theorem parse_print {s : Settings} (hblanks : s.keepBlanks = true) (hcomments : s.comments = true)
    (htrim : s.trim = false) {d : Document} {trees : List Tree} (hd : d.Shows trees)
    (h : TreesWellFormed s.affix trees) :
    (parse s d.print).2 = [] ∧ (parse s d.print).1.Shows trees ∧
      ∀ id, ((parse s d.print).1.node id).Fresh := by
  have hadds := adds_trees (c := ⟨s, .of d.print⟩) trees h.sound 0 {}
    (treesKept_of_keepBlanks hblanks hcomments trees _) (by decide) (by simp) (fun _ => rfl)
  have hproduced : ((treesTokens 0 trees).foldl (Builder.step ⟨s, .of d.print⟩) {}).produced = true ∨
      isSpaces d.print = true := by
    by_cases hnil : trees = []
    · right
      simp [isSpaces, hd.toList_print, hnil, treesChars]
    · exact .inl (hadds.produced (.inr hnil))
  have hfresh : ∀ tokens : List Token, ∀ i,
      ((tokens.foldl (Builder.step ⟨s, .of d.print⟩) {}).document.node i).Fresh := by
    intro tokens
    induction tokens using List.reverseRecOn with
    | nil =>
        intro i
        rw [List.foldl_nil, Document.node_empty]
        exact ⟨rfl, rfl, by simp [Node.element?, Node.document]⟩
    | append_singleton tokens t ih =>
        intro i
        rw [List.foldl_append]
        exact Builder.fresh_step _ ih t i
  have hparse : parse s d.print =
      (((treesTokens 0 trees).foldl (Builder.step ⟨s, .of d.print⟩) {}).document, []) := by
    simp only [parse, scan_print hd h, List.map_nil, Builder.finish, hadds.stack, htrim]
    rcases hproduced with hproduced | hspaces
    · simp [Builder.reportUnclosed, hproduced, hadds.diagnostics]
    · simp [Builder.reportUnclosed, hspaces, hadds.diagnostics]
  obtain ⟨ids, hids, hholds⟩ := hadds.added
  rw [hparse]
  refine ⟨rfl, ?_, hfresh _⟩
  rw [Document.Shows]
  have hroot : Builder.parent {} = 0 := rfl
  rw [hroot] at hids
  rw [hids]
  exact hholds.frame (fun i _ => .refl _) fun i hi => hi.2

/-- The opening tag of a paragraph with a divided name, a value that holds an expression, and a value
without a name. -/
def sampleTag : Tag :=
  ⟨"p", false, false,
    [⟨⟨some '@', "click", some ".prevent"⟩, some ("go", .brace)⟩,
     ⟨⟨none, "class", none⟩, some ("a \x7bb\x7d", .double)⟩,
     ⟨⟨none, "", none⟩, some ("...rest", .brace)⟩], none⟩

/-- A paragraph and a script. -/
def sampleTrees : List Tree :=
  [.element sampleTag
      [.text "Hi \x7bname\x7d", .element ⟨"br", true, false, [], none⟩ [], .comment " - "],
   .element ⟨"script", false, false, [⟨⟨none, "defer", none⟩, none⟩], some "let a;"⟩ []]

/-- A document that shows them. -/
def sampleDocument : Document :=
  let plain (name : AttributeName) (value : Value) : Attribute := { name, value, raw := "" }
  { nodes := #[
      { Node.document with children := [1, 5] },
      { Node.ofElement { name := "p", attributes := [
          plain ⟨some '@', "click", some ".prevent"⟩ (.text "go" .brace),
          plain ⟨none, "class", none⟩ (.text "a \x7bb\x7d" .double),
          plain ⟨none, "", none⟩ (.text "...rest" .brace)] } with children := [2, 3, 4] },
      Node.ofText "Hi \x7bname\x7d",
      Node.ofElement { name := "br", empty := true },
      Node.ofComment " - ",
      Node.ofElement { name := "script", raw := some "let a;", attributes := [
        plain ⟨none, "defer", none⟩ .empty] }]
    parents := #[none, some 0, some 1, some 1, some 1, some 0] }

/-- The sample tag is well-formed. -/
private theorem sampleTag_wellFormed : sampleTag.WellFormed true := by
  have hclass : Closed (· ≠ '"') "a \x7bb\x7d".toList :=
    .char (by decide) (by decide) (.char (by decide) (by decide)
      (.span (show Matched ['b'] by unfold Matched; decide) .nil))
  refine ⟨⟨'p', [], rfl, by decide, by simp⟩, by decide, ?_, fun h => absurd h (by decide),
    fun _ => rfl⟩
  simp only [sampleTag, List.forall_mem_cons, List.not_mem_nil, false_imp_iff, implies_true,
    and_true]
  refine ⟨⟨by decide, List.all_eq_true.mp (by decide), by decide, fun h => absurd h (by decide), ?_⟩,
    ⟨by decide, List.all_eq_true.mp (by decide), by decide, fun h => absurd h (by decide), ?_⟩,
    ⟨by decide, List.all_eq_true.mp (by decide), by decide, fun _ => ⟨_, rfl⟩, ?_⟩⟩
  · rintro text quote ⟨⟩
    show Matched "go".toList
    unfold Matched
    decide
  · rintro text quote ⟨⟩
    exact hclass
  · rintro text quote ⟨⟩
    show Matched "...rest".toList
    unfold Matched
    decide

/-- The sample trees are well-formed. -/
private theorem sampleTrees_wellFormed : TreesWellFormed true sampleTrees := by
  have htext : Closed (· ≠ '<') "Hi \x7bname\x7d".toList :=
    .char (by decide) (by decide) (.char (by decide) (by decide) (.char (by decide) (by decide)
      (.span (show Matched ['n', 'a', 'm', 'e'] by unfold Matched; decide) .nil)))
  have hbr : Tag.WellFormed true ⟨"br", true, false, [], none⟩ :=
    ⟨⟨'b', ['r'], rfl, by decide, List.all_eq_true.mp (by decide)⟩, by decide, by simp,
      fun h => absurd h (by decide), fun _ => rfl⟩
  have hcomment : ¬ "-->".toList <:+: " - ".toList := by decide
  have hraw : Unclosed "script" "let a;".toList := by
    -- without an angle bracket no tag closes
    intro before tag c after heq htag
    have hbracket : '<' ∈ tag.map lowerChar := by simp [htag, rawNeedle]
    obtain ⟨d, hd, hlower⟩ := List.mem_map.mp hbracket
    rw [eq_of_lowerChar_eq hlower (by decide)] at hd
    have hmem : '<' ∈ "let a;".toList := by simp [heq, hd]
    exact absurd hmem (by decide)
  have hscript : Tag.WellFormed true
      ⟨"script", false, false, [⟨⟨none, "defer", none⟩, none⟩], some "let a;"⟩ := by
    refine ⟨⟨'s', "cript".toList, rfl, by decide, List.all_eq_true.mp (by decide)⟩, by decide, ?_,
      fun _ => ⟨_, rfl, hraw⟩, fun h => absurd h (by decide)⟩
    simp only [List.forall_mem_singleton]
    exact ⟨by decide, List.all_eq_true.mp (by decide), by decide, fun h => absurd h (by decide),
      by simp⟩
  exact ⟨⟨sampleTag_wellFormed, by decide, ⟨⟨by decide, htext⟩, by decide,
    ⟨hbr, fun _ => rfl, trivial⟩, by decide, hcomment, by decide, trivial⟩⟩, by decide,
    ⟨hscript, fun _ => rfl, trivial⟩, by decide, trivial⟩

/-- The sample document shows the sample trees. -/
private theorem sampleDocument_shows : sampleDocument.Shows sampleTrees := by
  refine ⟨⟨by decide, ⟨_, rfl, rfl, rfl, rfl, rfl, rfl⟩, rfl, ?_⟩,
    ⟨by decide, ⟨_, rfl, rfl, rfl, rfl, rfl, rfl⟩, rfl, trivial⟩, trivial⟩
  exact ⟨⟨by decide, rfl⟩, ⟨by decide, ⟨_, rfl, rfl, rfl, rfl, rfl, rfl⟩, rfl, trivial⟩,
    ⟨by decide, rfl⟩, trivial⟩

/-- The sample is printed as an author would write it, and read again. -/
theorem parse_print_sample :
    sampleDocument.print =
      "<p @click.prevent=\x7bgo\x7d class=\"a \x7bb\x7d\" \x7b...rest\x7d>Hi \x7bname\x7d<br>" ++
        "<!-- - --></p><script defer>let a;</script>" ∧
    (parse ⟨true, true, false, true, false, false⟩ sampleDocument.print).2 = [] ∧
      (parse ⟨true, true, false, true, false, false⟩ sampleDocument.print).1.Shows sampleTrees := by
  have hread := parse_print (s := ⟨true, true, false, true, false, false⟩) rfl rfl rfl
    sampleDocument_shows sampleTrees_wellFormed
  exact ⟨by decide, hread.1, hread.2.1⟩

end Stencil.Markup
