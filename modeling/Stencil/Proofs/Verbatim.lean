import Mathlib.Data.List.TakeWhile
import Stencil.Proofs.Extents
import Stencil.Proofs.Readers
import Stencil.Proofs.Turns

/-!
# What becomes of code in a text

A text of a template is divided into literal text and the code in its braces.  The passes change a text
only by dividing it, once and in the dialect of the scripts (`divides_transform`).  The expressions of a
text have the codes that stand in braces at its place in the source, in order, without markers and
without spaces at the ends: where blanks are kept as they were written, elsewhere collapsed, strings and
all (`parseTemplate_carries`).
-/

namespace Stencil.Markup

open Stencil.Text
open Stencil.Script (Language Fault Expression ReadsTrimmed)

/-- The code of a part that is an expression. -/
def Part.code? : Part → Option String
  | .expression e _ => some e.code
  | .literal _ => none

/-- The codes of the expressions among some parts. -/
def codes (parts : List Part) : List String := parts.filterMap Part.code?

/-- Whether what stands in braces becomes an expression: it is not blank, and it is marked or is no
literal, whose value would be literal text. -/
def turned (read : String → Except Fault Expression) (inner : List Char) : Bool :=
  let (html, code) := splitMarker inner
  !inner.all isSpace &&
    (html || ((read (String.ofList code)).toOption.bind Expression.literal).isNone)

/-- The codes in those braces of a text whose inside is of a kind. -/
def spanCodes (kind : List Char → Bool) (text : String) : List String :=
  ((spans text.toList).filter kind).map fun inner => String.ofList (codeOf inner)

/-- A literal part has no code. -/
theorem codes_literalPart (text : List Char) (parts : List Part) :
    codes (literalPart text ++ parts) = codes parts := by
  unfold literalPart
  split
  · rfl
  · rfl

variable {read : String → Except Fault Expression}

/-- What stands in braces and is read becomes an expression unless it is an unmarked literal. -/
theorem turned_of_read {inner code : List Char} {html : Bool} {e : Expression}
    (hblank : ¬ inner.all isSpace = true) (hsplit : splitMarker inner = (html, code))
    (h : read (String.ofList code) = .ok e) :
    turned read inner = (html || e.literal.isNone) := by
  simp [turned, hblank, hsplit, h, Except.toOption]

/-- **Dividing a text** makes an expression of what stands in each of its braces, blanks and unmarked
literals excepted, in order. -/
theorem codes_splitFrom (hread : ReadsTrimmed read) {literal cs : List Char} {parts : List Part}
    (h : splitFrom read literal cs = .ok parts) :
    codes parts = ((spans cs).filter (turned read)).map fun inner =>
      String.ofList (codeOf inner) := by
  fun_induction splitFrom read literal cs generalizing parts with
  | case1 literal cs hcut =>
      have hnone := codes_literalPart (literal ++ cs) []
      rw [List.append_nil] at hnone
      rw [← Except.ok.inj h, hnone, spans_of_cutBrace?_eq_none hcut]
      rfl
  | case2 _ _ b hcut _ _ hblank =>
      rename_i ih
      have hnot : turned read b.inner = false := by simp [turned, hblank]
      rw [spans_of_cutBrace?_eq_some hcut, List.filter_cons_of_neg (by simp [hnot]), ih h]
  | case3 => simp at h
  | case4 _ _ b hcut _ _ hblank code e hcode folded hliteral hsplit =>
      rename_i ih
      have hnot : turned read b.inner = false := by
        simp [turned_of_read hblank hsplit hcode, hliteral]
      rw [spans_of_cutBrace?_eq_some hcut, List.filter_cons_of_neg (by simp [hnot]), ih h]
  | case5 => simp at h
  | case6 _ _ b hcut _ _ hblank html code hsplit e hcode more hmore hkind =>
      rename_i ih
      have hown : e.code = String.ofList (codeOf b.inner) := by
        rw [hread.code hcode, trim, String.toList_ofList, codeOf, hsplit]
      have hturned : turned read b.inner = true := by
        rw [turned_of_read hblank hsplit hcode]
        cases html with
        | true => rfl
        | false =>
            cases hliteral : e.literal with
            | none => rfl
            | some folded => exact absurd rfl (hkind folded hliteral)
      rw [spans_of_cutBrace?_eq_some hcut, ← Except.ok.inj h, codes_literalPart,
        List.filter_cons_of_pos hturned, List.map_cons, ← hown, ← ih hmore]
      rfl

/-- The code of parts is what is written in the braces, as it is turned. -/
theorem codes_interpolate (hread : ReadsTrimmed read) {text : String} {parts : List Part}
    (h : interpolate read text = .ok parts) : codes parts = spanCodes (turned read) text :=
  codes_splitFrom hread h

/-- The codes in the braces of a collapsed text are those of the text, collapsed. -/
theorem spanCodes_collapse (kind : List Char → Bool) (text : String) :
    spanCodes kind (collapse text) =
      (spanCodes (kind ∘ collapseFrom false) text).map collapse := by
  simp only [spanCodes, collapse, String.toList_ofList, spans_collapseFrom, List.filter_map,
    List.map_map]
  apply List.map_congr_left
  intro inner _
  simp [collapse, codeOf_collapseFrom]

/-- The expressions among the parts of a text have the codes that stand in its braces, in order, as
they were written if blanks are kept, and else collapsed.  Whether there is an expression is decided
by what is read, which is collapsed then. -/
structure CodesCarried (read : String → Except Fault Expression) (kept : Prop) (written : String)
    (parts : List Part) : Prop where
  verbatim : kept → codes parts = spanCodes (turned read) written
  collapsed : ¬ kept →
    codes parts = (spanCodes (turned read ∘ collapseFrom false) written).map collapse

/-- Blank text has no braces. -/
theorem spans_of_blank {cs : List Char} (h : cs.all isBlank = true) : spans cs = [] := by
  apply spans_of_cutBrace?_eq_none
  have hnone : cs.dropWhile (· != '\x7b') = [] := by
    rw [List.dropWhile_eq_nil_iff]
    intro c hc
    rw [bne_iff_ne]
    rintro rfl
    exact absurd (List.all_eq_true.mp h _ hc) (by decide)
  rw [cutBrace?, hnone]
  rfl

/-- The parts of a text have the codes of what was written. -/
theorem Carried.codesCarried {kept : Prop} {written text : String} (h : Carried kept written text)
    (hread : ReadsTrimmed read) {parts : List Part} (hparts : interpolate read text = .ok parts) :
    CodesCarried read kept written parts where
  verbatim hkept := by rw [codes_interpolate hread hparts, h.verbatim hkept]
  collapsed hkept := by rw [codes_interpolate hread hparts, h.collapsed hkept, spanCodes_collapse]

/-- Of a blank text there are no codes, whether or not it was collapsed. -/
theorem Carried.codesCarried_of_blank {kept kept' : Prop} {written text : String}
    (h : Carried kept written text) (hblank : text.toList.all isBlank = true)
    (hread : ReadsTrimmed read) {parts : List Part} (hparts : interpolate read text = .ok parts) :
    CodesCarried read kept' written parts := by
  have hspans : spans text.toList = [] := spans_of_blank hblank
  have hnone : spans written.toList = [] := by
    by_cases hkept : kept
    · rwa [← h.verbatim hkept]
    · rw [h.collapsed hkept, collapse, String.toList_ofList, spans_collapseFrom] at hspans
      exact List.map_eq_nil_iff.mp hspans
  have hcodes : codes parts = [] := by
    rw [codes_interpolate hread hparts, spanCodes, hspans]
    rfl
  constructor
  · intro _
    rw [hcodes, spanCodes, hnone]
    rfl
  · intro _
    rw [hcodes, spanCodes, hnone]
    rfl

/-- The codes of a text of a document, before the passes, are those of the text at its place. -/
theorem parse_codesCarried {s : Settings} {source : String} {id : Nat} {content : TextContent}
    (hcontent : ((parse s source).1.node id).content = .text content) :
    ∃ text start stop, content = .raw text ∧
      ((parse s.indexed source).1.node id).Takes start stop ∧
      ∀ read parts, ReadsTrimmed read → interpolate read text = .ok parts →
        CodesCarried read (s.keepBlanks = true ∨ (parse s source).1.Sheltered id)
          (textBetween (scan source).1 start stop) parts := by
  obtain ⟨text, start, stop, rfl, htakes, kept, hcarried, hkept⟩ := parse_text_between hcontent
  refine ⟨text, start, stop, rfl, htakes, fun read parts hread hparts => ?_⟩
  cases hblank : ((parse s source).1.node id).isBlankText with
  | true =>
      have hall : text.toList.all isBlank = true := by
        simpa [Node.isBlankText, hcontent] using hblank
      exact hcarried.codesCarried_of_blank hall hread hparts
  | false => exact (hcarried.congr (hkept hblank).symm).codesCarried hread hparts

end Stencil.Markup

namespace Stencil

open Stencil.Markup Stencil.Passes
open Stencil.Script (Language Fault Expression)

/-- The second content of a text is the first, or its division into parts. -/
def Markup.TextContent.Divides (read : String → Except Fault Expression)
    (content content' : TextContent) : Prop :=
  content' = content ∨ ∃ text parts, content = .raw text ∧ content' = .parts parts ∧
    interpolate read text = .ok parts

/-- The texts of the second document are those of the first, or their divisions into parts. -/
def Markup.Document.Divides (read : String → Except Fault Expression) (d d' : Document) : Prop :=
  ∀ id content', (d'.node id).content = .text content' →
    ∃ content, (d.node id).content = .text content ∧ content.Divides read content'

variable {lang : Language} {read : String → Except Fault Expression}

theorem Markup.Document.Divides.refl (d : Document) : d.Divides read d :=
  fun _ content hcontent => ⟨content, hcontent, .inl rfl⟩

theorem Markup.Document.Divides.trans {a b c : Document} (h : a.Divides read b)
    (h' : b.Divides read c) : a.Divides read c := by
  intro id content hcontent
  obtain ⟨middle, hmiddle, hlater⟩ := h' id content hcontent
  obtain ⟨first, hfirst, hearlier⟩ := h id middle hmiddle
  refine ⟨first, hfirst, ?_⟩
  rcases hlater with rfl | ⟨text, parts, rfl, rfl, hparts⟩
  · exact hearlier
  · -- what was divided already is not divided again
    rcases hearlier with rfl | ⟨_, _, _, hraw, _⟩
    · exact .inr ⟨text, parts, rfl, rfl, hparts⟩
    · simp at hraw

/-- Changing one node, and in a text no more than dividing it. -/
theorem Markup.Document.divides_update {d : Document} {id : Nat} {f : Node → Node}
    (hf : ∀ content', (f (d.node id)).content = .text content' →
      ∃ content, (d.node id).content = .text content ∧ content.Divides read content') :
    d.Divides read (d.update id f) := by
  intro i content' hcontent
  rcases node_update_cases d id f i with hnode | ⟨rfl, hnode⟩
  · rw [hnode] at hcontent
    exact ⟨content', hcontent, .inl rfl⟩
  · rw [hnode] at hcontent
    exact hf content' hcontent

/-- Changing one node but for its content. -/
theorem Markup.Document.divides_update_of_content {d : Document} {id : Nat} {f : Node → Node}
    (hf : (f (d.node id)).content = (d.node id).content) : d.Divides read (d.update id f) :=
  divides_update fun content' hcontent => ⟨content', by rw [← hf, hcontent], .inl rfl⟩

/-- Changing one node to an element. -/
theorem Markup.Document.divides_update_of_element {d : Document} {id : Nat} {f : Node → Node}
    {e : Element} (hf : (f (d.node id)).content = .element e) : d.Divides read (d.update id f) :=
  divides_update fun content' hcontent => by simp [hf] at hcontent

/-- Typing divides nothing. -/
theorem Passes.divides_typeStep (d : Document) (id : Nat) :
    d.Divides read (typeStep d id).document := by
  simp only [typeStep]
  split
  · exact .refl d
  · split
    · exact .refl d
    · next e he => exact Document.divides_update_of_element rfl

/-- Reading an embedded script or style divides nothing. -/
theorem Passes.divides_embeddedStep (d : Document) (id : Nat) :
    d.Divides read (embeddedStep lang d id).document := by
  simp only [embeddedStep]
  repeat' split
  all_goals first
    | exact .refl d
    | exact Document.divides_update_of_content rfl

/-- Reading the header of a block divides nothing. -/
theorem Passes.divides_blockStep (readBlock : String → Except Fault Expression) (d : Document)
    (id : Nat) : d.Divides read (blockStep readBlock d id).document := by
  simp only [blockStep]
  split
  · split
    · exact .refl d
    · split
      · exact .refl d
      · exact Document.divides_update_of_element rfl
  · exact .refl d

/-- Dividing attributes divides no text. -/
theorem Passes.divides_attributeStep (readValue : String → Except Fault Expression) (d : Document)
    (id : Nat) : d.Divides read (attributeStep readValue d id).document := by
  simp only [attributeStep]
  split
  -- elements, components and fragments are treated alike
  iterate 3
    · next e _ he =>
        split
        · refine Document.divides_update_of_element (e := { e with attributes := [] }) ?_
          simp [Node.mapElement, Node.content_of_element? he]
        · exact Document.divides_update_of_element rfl
  · exact .refl d

/-- Dividing a text. -/
theorem Passes.divides_textStep (d : Document) (id : Nat) :
    d.Divides read (textStep read d id).document := by
  have hmark : ∀ d : Document, d.Divides read (markAbove d id) := by
    intro d
    unfold markAbove
    split
    · exact Document.divides_update_of_content rfl
    · exact .refl d
  simp only [textStep]
  split
  · next text _ hcontent =>
      split
      · exact .refl d
      · next parts hparts =>
          have hupdate : d.Divides read
              (d.update id fun n => { n with content := .text (.parts parts) }) := by
            apply Document.divides_update
            rintro _ ⟨rfl⟩
            exact ⟨.raw text, hcontent, .inr ⟨text, parts, rfl, rfl, hparts⟩⟩
          split
          · exact hupdate.trans (hmark _)
          · exact hupdate
  · exact .refl d

/-- A pass whose steps divide texts. -/
theorem Passes.divides_visit {step : Document → Nat → Outcome}
    (h : ∀ (d : Document) id, d.Divides read (step d id).document) (ids : List Nat) (d : Document) :
    d.Divides read (visit step ids d).document := by
  induction ids generalizing d with
  | nil => exact .refl d
  | cons id rest ih =>
      simp only [visit]
      split
      · exact h d id
      · exact (h d id).trans (ih _)

/-- The other passes change nothing about texts. -/
theorem Pass.divides_run (read : String → Except Fault Expression) (typed : Bool) (d : Document)
    {p : Pass} (hp : p ≠ .texts) : d.Divides read (p.run lang typed d).document := by
  cases p with
  | types => exact divides_visit divides_typeStep _ d
  | embedded => exact divides_visit divides_embeddedStep _ d
  | blocks => exact divides_visit (divides_blockStep _) _ d
  | attributes => exact divides_visit (divides_attributeStep _) _ d
  | texts => exact absurd rfl hp

/-- **The pass over texts divides them**, and changes nothing else about them. -/
theorem Pass.divides_texts (typed : Bool) (d : Document) :
    d.Divides (lang.expression typed) (Pass.run lang typed d .texts).document :=
  divides_visit divides_textStep _ d

/-! ### The dialect in which texts are divided -/

/-- Dividing a text does not change whether the document is typed. -/
theorem Passes.isTyped_textStep (d : Document) (id : Nat) :
    isTyped (textStep read d id).document = isTyped d := by
  cases herror : (textStep read d id).error with
  | none =>
      have heffect := textStep_effect herror
      have hnode : ∀ i, ((textStep read d id).document.node i).type = (d.node i).type ∧
          ((textStep read d id).document.node i).params.typescript = (d.node i).params.typescript := by
        intro i
        refine heffect.node_induct (P := fun n => n.type = (d.node i).type ∧
          n.params.typescript = (d.node i).params.typescript) ⟨rfl, rfl⟩ (fun n hn => ?_)
          fun _ _ hn => hn
        cases hn with
        | text => exact ⟨rfl, rfl⟩
      rw [isTyped, isTyped, heffect.sameTree.walk_eq]
      simp only [hnode]
  | some e =>
      -- a text that cannot be divided is left as it is
      revert herror
      simp only [textStep]
      split
      · split <;> simp
      · simp

/-- The pass over texts does not change whether the scripts are typed, also where it fails. -/
theorem Pass.isTyped_texts (typed : Bool) (d : Document) :
    isTyped (Pass.run lang typed d .texts).document = isTyped d := by
  rw [Pass.run_eq, Passes.run]
  generalize d.walk = ids
  induction ids generalizing d with
  | nil => rfl
  | cons id rest ih =>
      have hstep : isTyped (Pass.step lang typed .texts d id).document = isTyped d :=
        isTyped_textStep d id
      simp only [visit]
      split
      · exact hstep
      · exact (ih _).trans hstep

/-- The passes that read the code between the tags divide texts in the dialect of the scripts. -/
theorem divides_second {typed : Bool} {d : Document} (h : isTyped d = typed) :
    let d' := (runPasses lang typed [.blocks, .attributes, .texts] d).document
    d.Divides (lang.expression (isTyped d')) d' := by
  simp only [runPasses, Pass.dialect]
  split
  · exact Pass.divides_run _ _ d (by simp)
  · next hblocks =>
      have hfirst := fun read => @Pass.divides_run lang read typed d .blocks (by simp)
      have htyped := (Pass.isTyped_run (by simp) hblocks).trans h
      generalize (Pass.run lang typed d .blocks).document = d₁ at *
      split
      · exact (hfirst _).trans (Pass.divides_run _ _ d₁ (by simp))
      · next hattributes =>
          have hsecond := fun read => @Pass.divides_run lang read typed d₁ .attributes (by simp)
          have htyped' := (Pass.isTyped_run (by simp) hattributes).trans htyped
          generalize (Pass.run lang typed d₁ .attributes).document = d₂ at *
          have hsame := (@Pass.isTyped_texts lang typed d₂).trans htyped'
          have hlast : d.Divides (lang.expression (isTyped (Pass.run lang typed d₂ .texts).document))
              (Pass.run lang typed d₂ .texts).document := by
            rw [hsame]
            exact (hfirst _).trans ((hsecond _).trans (Pass.divides_texts typed d₂))
          split <;> exact hlast

/-- **All passes divide texts** in the dialect of the scripts, and change nothing else about them. -/
theorem divides_transform (lang : Language) (d : Document) :
    d.Divides (lang.expression (isTyped (transform lang d).document)) (transform lang d).document := by
  have htypes := fun read => @Pass.divides_run lang read false d .types (by simp)
  rw [transform, Pass.all, runPasses]
  split
  · exact htypes _
  · have hembedded := fun read =>
      (htypes read).trans (@Pass.divides_run lang read false _ .embedded (by simp))
    rw [runPasses]
    split
    · exact hembedded _
    · exact (hembedded _).trans (divides_second rfl)

/-- **What becomes of code in a text.**  The expressions of a divided text have the codes that stand in
braces at the place of the text in the source, one for each of those that hold neither blanks alone
nor an unmarked literal, in order: as they were written where blanks are kept, and collapsed
elsewhere. -/
theorem parseTemplate_carries (hlang : lang.ReadsTrimmed) {o : Options} {source : String} {id : Nat}
    {parts : List Part}
    (h : ((parseTemplate lang o source).document.node id).content = .text (.parts parts)) :
    ∃ start stop, ((parse o.markup.indexed source).1.node id).Takes start stop ∧
      CodesCarried (lang.expression (isTyped (parseTemplate lang o source).document))
        (o.markup.keepBlanks = true ∨ (parse o.markup source).1.Sheltered id)
        (textBetween (scan source).1 start stop) parts := by
  obtain ⟨content, hcontent, hdivides⟩ := divides_transform lang (parse o.markup source).1 id _ h
  obtain ⟨text, start, stop, rfl, htakes, hcarried⟩ := parse_codesCarried hcontent
  rcases hdivides with hsame | ⟨text', parts', hraw, hparts, hread⟩
  · simp at hsame
  · cases hraw
    cases hparts
    exact ⟨start, stop, htakes, hcarried _ parts (hlang _) hread⟩

/-- A string with two blanks in a preformatted element is kept. -/
theorem parseTemplate_carries_preformatted :
    let source := "<pre>\x7bf(\"a  b\")\x7d</pre>"
    let e : Script.Expression := ⟨"f(\"a  b\")", ["f"], [], .other, none⟩
    Script.javaScript.ReadsTrimmed ∧
      ((parseTemplate Script.javaScript {} source).document.node 2).content =
        .text (.parts [.expression e false]) ∧
      isTyped (parseTemplate Script.javaScript {} source).document = false ∧
      ∃ start stop,
        ((parse ({} : Options).markup.indexed source).1.node 2).Takes start stop ∧
        CodesCarried (Script.javaScript.expression false)
          (({} : Options).markup.keepBlanks = true ∨
            (parse ({} : Options).markup source).1.Sheltered 2)
          (textBetween (scan source).1 start stop) [.expression e false] := by
  intro source e
  have hparts : ((parseTemplate Script.javaScript {} source).document.node 2).content =
      .text (.parts [.expression e false]) := by decide +kernel
  have htyped : isTyped (parseTemplate Script.javaScript {} source).document = false := by
    decide +kernel
  have hcarried := parseTemplate_carries Script.readsTrimmed_javaScript hparts
  rw [htyped] at hcarried
  exact ⟨Script.readsTrimmed_javaScript, hparts, htyped, hcarried⟩

/-- The same string in a paragraph is changed: it is handed over with one blank. -/
theorem parseTemplate_changes_string :
    let source := "<p>\x7bf(\"a  b\")\x7d</p>"
    ∃ parts, ((parseTemplate Script.javaScript {} source).document.node 2).content =
        .text (.parts parts) ∧
      textBetween (scan source).1 3 14 = "\x7bf(\"a  b\")\x7d" ∧
      ((parse ({} : Options).markup.indexed source).1.node 2).position.bind (·.start) = some 3 ∧
      ((parse ({} : Options).markup.indexed source).1.node 2).position.bind (·.stop) = some 14 ∧
      codes parts = ["f(\"a b\")"] := by
  refine ⟨[.expression ⟨"f(\"a b\")", ["f"], [], .other, none⟩ false], ?_⟩
  decide +kernel

end Stencil
