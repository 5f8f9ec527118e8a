import Stencil.Proofs.Attributes
import Stencil.Proofs.Scanned
import Stencil.Proofs.Served

/-!
# Literals folded into text

The value of a literal in braces becomes part of the text around it, and text is added to the markup
as it stands.  An expression without names that is not folded is evaluated where the markup is built,
and its value is escaped there.  So the two agree on a literal exactly if nothing in its value has to
be escaped (`walkText_folded`).

A text is walked span by span (`walked_append`): what a span adds does not depend on the text around
it.
-/

namespace Stencil

open Stencil.Text Stencil.Markup Stencil.Render
open Stencil.Script (Fault Expression)

/-- A character as text of markup. -/
def Text.contentChar (c : Char) : List Char :=
  match c with
  | '&' => "&amp;".toList
  | '<' => "&lt;".toList
  | '>' => "&gt;".toList
  | c => [c]

/-- A text as text of markup, as the runtime escapes the values of expressions: ampersands and angle
brackets as entities, and all other characters as they are. -/
def Text.contentText (text : String) : String := String.ofList (text.toList.flatMap contentChar)

/-- The markup that a piece comes to when the component runs, by the values of its expressions. -/
def Render.Piece.shown (value : String → String) : Piece → String
  | .html text => text
  | .constant code true => value code
  | .constant code false => contentText (value code)

/-- The markup that a block comes to when the component runs. -/
def Render.Block.shown (value : String → String) (b : Block) : String :=
  String.join (b.pieces.map (Piece.shown value))

/-- A walk before its first step. -/
def Walk.fresh : Walk := { component := { name := "Component", root := 0 }, imports := {} }

/-- The static markup of the frame that is being filled, as it is when the component runs. -/
def Walk.shown (value : String → String) (w : Walk) : String := w.frame.markup.shown value

section Shown

variable (value : String → String)

/-- A block shows a piece that is pushed behind what it showed. -/
theorem Render.Block.shown_push (b : Block) (p : Piece) :
    (b.push p).shown value = b.shown value ++ p.shown value := by
  obtain ⟨pieces⟩ := b
  rcases List.eq_nil_or_concat pieces with rfl | ⟨init, q, rfl⟩
  · simp [Block.push, Block.pushPiece, Block.shown]
  · rw [List.concat_eq_append, Block.push, Block.pushPiece_concat]
    cases q with
    | constant code raw => simp [Block.pushPiece, Block.shown, String.append_assoc]
    | html a =>
        cases p with
        | constant code raw => simp [Block.pushPiece, Block.shown, String.append_assoc]
        | html b => simp [Block.pushPiece, Block.shown, Piece.shown, String.append_assoc]

namespace Walk

variable (w : Walk)

/-- Printed text is shown. -/
theorem shown_html (text : String) : (w.html text).shown value = w.shown value ++ text := by
  rw [shown, frame_html, Frame.pushHtml]
  split
  · next hempty => simp [shown, String.isEmpty_iff.mp hempty]
  · rw [Frame.markup_pushPiece, Block.shown_push]
    rfl

/-- A constant shows its value. -/
theorem shown_constant (code : String) (raw : Bool) : (w.constant code raw).shown value =
    w.shown value ++ Piece.shown value (.constant code raw) := by
  rw [shown, frame_constant, Frame.pushConstant, Frame.markup_pushPiece, Block.shown_push]
  rfl

/-- A spot shows nothing. -/
theorem shown_spot (reference : Option Nat) (kind : SpotKind) :
    (w.spot reference kind).shown value = w.shown value := by
  rw [shown, frame_spot]
  rfl

/-- What some parts add depends on nothing but the number of the next reference. -/
theorem shown_walkParts (parts : List Part) (w w' : Walk)
    (h : w.component.references = w'.component.references) :
    ∃ added, (walkParts w parts).shown value = w.shown value ++ added ∧
      (walkParts w' parts).shown value = w'.shown value ++ added := by
  induction parts generalizing w w' with
  | nil => exact ⟨"", by simp [walkParts], by simp [walkParts]⟩
  | cons part rest ih =>
      cases part with
      | literal text =>
          obtain ⟨added, hw, hw'⟩ := ih (w.html text) (w'.html text) (by
            simpa [html, map, Component.pushHtml] using h)
          refine ⟨text ++ added, ?_, ?_⟩
          · rw [walkParts, hw, shown_html, String.append_assoc]
          · rw [walkParts, hw', shown_html, String.append_assoc]
      | expression e raw =>
          by_cases hstatic : e.isStatic = true
          · obtain ⟨added, hw, hw'⟩ := ih (w.constant e.code raw) (w'.constant e.code raw)
              (by simpa [constant, map, Component.pushConstant] using h)
            refine ⟨Piece.shown value (.constant e.code raw) ++ added, ?_, ?_⟩
            · rw [walkParts, if_pos hstatic, hw, shown_constant, String.append_assoc]
            · rw [walkParts, if_pos hstatic, hw', shown_constant, String.append_assoc]
          · obtain ⟨added, hw, hw'⟩ := ih
              (w.anchor.2.spot (some w.anchor.1) (.text e raw))
              (w'.anchor.2.spot (some w'.anchor.1) (.text e raw))
              (by simpa [anchor, allocate, html, spot, map, Component.allocate, Component.pushHtml,
                Component.pushSpot] using h)
            have hmark : ∀ w : Walk, w.anchor.2.shown value =
                w.shown value ++ ("<!--ref:" ++ toString w.component.references ++ "-->") :=
              fun w => shown_html value w.allocate.2 _
            refine ⟨"<!--ref:" ++ toString w.component.references ++ "-->" ++ added, ?_, ?_⟩
            · rw [walkParts, if_neg hstatic]
              simp only [hw, shown_spot, hmark, String.append_assoc]
            · rw [walkParts, if_neg hstatic]
              simp only [hw', shown_spot, hmark, String.append_assoc, h]

end Walk

/-- Escaping only adds characters, and it adds none exactly where there is nothing to escape. -/
theorem Text.contentText_eq_self_iff (text : String) :
    contentText text = text ↔ ∀ c ∈ text.toList, c ≠ '&' ∧ c ≠ '<' ∧ c ≠ '>' := by
  have hplain : ∀ c : Char, c ≠ '&' ∧ c ≠ '<' ∧ c ≠ '>' → contentChar c = [c] := by
    rintro c ⟨h₁, h₂, h₃⟩
    unfold contentChar
    split <;> simp_all
  have hlong : ∀ c : Char, 1 ≤ (contentChar c).length := by
    intro c
    unfold contentChar
    split <;> simp
  have hlonger : ∀ c : Char, ¬ (c ≠ '&' ∧ c ≠ '<' ∧ c ≠ '>') → 1 < (contentChar c).length := by
    intro c hc
    by_cases h₁ : c = '&'
    · subst h₁; decide
    · by_cases h₂ : c = '<'
      · subst h₂; decide
      · by_cases h₃ : c = '>'
        · subst h₃; decide
        · exact absurd ⟨h₁, h₂, h₃⟩ hc
  have hgrows : ∀ cs : List Char, cs.length ≤ (cs.flatMap contentChar).length := by
    intro cs
    induction cs with
    | nil => simp
    | cons c rest ih =>
        have := hlong c
        simp only [List.length_cons, List.flatMap_cons, List.length_append]
        omega
  have hlist : ∀ cs : List Char,
      cs.flatMap contentChar = cs ↔ ∀ c ∈ cs, c ≠ '&' ∧ c ≠ '<' ∧ c ≠ '>' := by
    intro cs
    induction cs with
    | nil => simp
    | cons c rest ih =>
        rw [List.forall_mem_cons, ← ih, List.flatMap_cons]
        constructor
        · intro heq
          have hlength := congrArg List.length heq
          have := hgrows rest
          simp only [List.length_append, List.length_cons] at hlength
          have hc : c ≠ '&' ∧ c ≠ '<' ∧ c ≠ '>' := by
            by_contra hno
            have := hlonger c hno
            omega
          rw [hplain c hc] at heq
          exact ⟨hc, List.cons.inj heq |>.2⟩
        · rintro ⟨hc, hrest⟩
          rw [hplain c hc, hrest]
          rfl
  rw [← hlist, contentText, ← String.toList_inj, String.toList_ofList]

end Shown

section Spans

variable {read : String → Except Fault Expression}

/-- A character that opens no brace goes in front of the first expression. -/
theorem cutBrace?_cons {c : Char} (hc : c ≠ '\x7b') (cs : List Char) :
    cutBrace? (c :: cs) = (cutBrace? cs).map fun b => ⟨c :: b.before, b.inner, b.rest⟩ := by
  have hne : (c != '\x7b') = true := by simpa using hc
  simp only [cutBrace?, List.dropWhile_cons, List.takeWhile_cons, hne, if_true]
  split <;> simp_all

/-- Matched braces in front are cut at once. -/
theorem cutBrace?_span {inner : List Char} (h : Matched inner) (rest : List Char) :
    cutBrace? ('\x7b' :: (inner ++ '\x7d' :: rest)) = some ⟨[], inner, rest⟩ := by
  simp [cutBrace?, braceSpan, h.closing_eq rest]

/-- Text with nothing to cut is one literal. -/
theorem splitFrom_of_none {cs : List Char} (h : cutBrace? cs = none) (literal : List Char) :
    splitFrom read literal cs = .ok (literalPart (literal ++ cs)) := by
  rw [splitFrom]
  split
  · rfl
  · next hcut => simp [h] at hcut

/-- A text is divided at its first span. -/
theorem splitFrom_of_some {cs : List Char} {b : BraceCut} (h : cutBrace? cs = some b)
    (literal : List Char) :
    splitFrom read literal cs =
      if b.inner.all isSpace then
        splitFrom read (literal ++ b.before ++ '{' :: b.inner ++ ['}']) b.rest
      else
        match read (String.ofList (splitMarker b.inner).2) with
        | .error f => .error f
        | .ok e =>
            match e.literal, (splitMarker b.inner).1 with
            | some folded, false => splitFrom read (literal ++ b.before ++ folded.toList) b.rest
            | _, _ =>
                match splitFrom read [] b.rest with
                | .error f => .error f
                | .ok parts => .ok (literalPart (literal ++ b.before) ++
                    .expression e (splitMarker b.inner).1 :: parts) := by
  rw [splitFrom]
  split
  · next hcut => simp [h] at hcut
  · next b' hcut =>
      obtain rfl : b = b' := Option.some.inj (h.symm.trans hcut)
      rfl

/-- A character that opens no brace is literal text. -/
theorem splitFrom_cons {c : Char} (hc : c ≠ '{') (literal cs : List Char) :
    splitFrom read literal (c :: cs) = splitFrom read (literal ++ [c]) cs := by
  have hcut := cutBrace?_cons hc cs
  cases hcs : cutBrace? cs with
  | none =>
      rw [hcs, Option.map_none] at hcut
      rw [splitFrom_of_none hcut, splitFrom_of_none hcs, List.append_assoc, List.singleton_append]
  | some b =>
      rw [hcs, Option.map_some] at hcut
      rw [splitFrom_of_some hcut, splitFrom_of_some hcs]
      simp only [List.append_assoc, List.cons_append, List.nil_append]

/-- What a text adds to the markup once it is divided. -/
def walked (read : String → Except Fault Expression) (w : Walk) (cs : List Char) :
    Except Fault Walk :=
  (splitFrom read [] cs).map (walkParts w)

/-- What a span in braces adds to the markup. -/
def walkSpan (read : String → Except Fault Expression) (w : Walk) (inner : List Char) :
    Except Fault Walk :=
  if inner.all isSpace then .ok (w.html (String.ofList ('{' :: (inner ++ ['}']))))
  else
    match read (String.ofList (splitMarker inner).2) with
    | .error f => .error f
    | .ok e =>
        match e.literal, (splitMarker inner).1 with
        | some folded, false => .ok (w.html folded)
        | _, _ => .ok (walkParts w [.expression e (splitMarker inner).1])

/-- Walking over a literal part prints its text. -/
theorem walkParts_literalPart (w : Walk) (text : List Char) (parts : List Part) :
    walkParts w (literalPart text ++ parts) = walkParts (w.html (String.ofList text)) parts := by
  unfold literalPart
  split
  · next hempty => simp [List.isEmpty_iff.mp hempty, w.html_empty]
  · rfl

/-- Parts are walked one after another. -/
theorem walkParts_append (w : Walk) (a b : List Part) :
    walkParts w (a ++ b) = walkParts (walkParts w a) b := by
  induction a generalizing w with
  | nil => rfl
  | cons part rest ih =>
      cases part with
      | literal text => exact ih _
      | expression e raw =>
          simp only [List.cons_append, walkParts]
          split <;> exact ih _

/-- Text printed joined is text printed in two steps. -/
theorem html_ofList_append (w : Walk) (a b : List Char) :
    w.html (String.ofList (a ++ b)) = (w.html (String.ofList a)).html (String.ofList b) := by
  rw [w.html_html, String.ofList_append]

/-- Literal text in front of a text is added first. -/
theorem map_walkParts_splitFrom (literal cs : List Char) (w : Walk) :
    (splitFrom read literal cs).map (walkParts w) = walked read (w.html (String.ofList literal)) cs := by
  induction hsize : cs.length using Nat.strong_induction_on generalizing literal cs w with
  | _ size ih =>
      unfold walked
      cases hcut : cutBrace? cs with
      | none =>
          have hplain : ∀ (text : List Char) (w : Walk),
              walkParts w (literalPart text) = w.html (String.ofList text) := fun text w => by
            simpa [walkParts] using walkParts_literalPart w text []
          rw [splitFrom_of_none hcut, splitFrom_of_none hcut]
          simp only [Except.map, hplain, html_ofList_append, List.nil_append]
      | some b =>
          have hshort : b.rest.length < size := hsize ▸ length_cutBrace? hcut
          have hmore := fun literal w => ih _ hshort literal b.rest w rfl
          rw [splitFrom_of_some hcut, splitFrom_of_some hcut]
          split
          · simp only [hmore, html_ofList_append, List.nil_append]
          · split
            · rfl
            · split
              · simp only [hmore, html_ofList_append, List.nil_append]
              · cases splitFrom read [] b.rest with
                | error f => rfl
                | ok parts =>
                    simp only [Except.map, walkParts_literalPart, html_ofList_append, List.nil_append]

/-- A span adds its share, and then the text behind it adds its own. -/
theorem walked_span {inner : List Char} (h : Matched inner) (rest : List Char) (w : Walk) :
    walked read w ('{' :: (inner ++ '}' :: rest)) =
      (walkSpan read w inner).bind fun w => walked read w rest := by
  rw [walked, splitFrom_of_some (cutBrace?_span h rest), walkSpan]
  simp only [List.nil_append]
  split
  · exact map_walkParts_splitFrom _ _ _
  · split
    · rfl
    · split
      · rw [map_walkParts_splitFrom, String.ofList_toList]
        rfl
      · unfold walked
        cases splitFrom read [] rest with
        | error f => rfl
        | ok parts =>
            simp only [Except.map, Except.bind, walkParts_literalPart, String.ofList_nil, w.html_empty]
            rw [← walkParts_append]
            rfl

/-- **Span by span.**  A text that leaves no brace open adds its share, and then the text behind it
adds its own. -/
theorem walked_append {before : List Char} (h : Closed (fun _ => True) before) (more : List Char)
    (w : Walk) :
    walked read w (before ++ more) = (walked read w before).bind fun w => walked read w more := by
  induction h generalizing w with
  | nil =>
      have hnone : walked read w [] = .ok w := by
        have hcut : cutBrace? [] = none := rfl
        simp only [walked, splitFrom_of_none hcut]
        rfl
      rw [hnone]
      rfl
  | @char c rest hbrace _ _ ih =>
      have hchar : ∀ cs, walked read w (c :: cs) = walked read (w.html (String.ofList [c])) cs := by
        intro cs
        rw [walked, splitFrom_cons hbrace, map_walkParts_splitFrom]
        rfl
      rw [List.cons_append, hchar, hchar, ih]
  | @span inner rest hinner _ ih =>
      have hspan : '{' :: (inner ++ '}' :: rest) ++ more =
          '{' :: (inner ++ '}' :: (rest ++ more)) := by simp
      rw [hspan, walked_span hinner, walked_span hinner]
      cases walkSpan read w inner with
      | error f => rfl
      | ok w => exact ih w

end Spans

/-- The inside of braces in a text is an expression whose value is text. -/
structure IsInterpolation (read : String → Except Fault Expression) (inner : String) (e : Expression) :
    Prop where
  matched : Matched inner.toList
  nonblank : isSpaces inner = false
  unmarked : splitMarker inner.toList = (false, inner.toList)
  reads : read inner = .ok e

/-- A text around an expression in braces. -/
def around (before inner after : String) : String := before ++ "\x7b" ++ inner ++ "\x7d" ++ after

section Folding

variable {read : String → Except Fault Expression} {before inner after : String} {e : Expression}

/-- An expression that is a literal is walked by printing its value. -/
theorem walkSpan_of_literal (h : IsInterpolation read inner e) {v : String}
    (hliteral : e.literal = some v) (w : Walk) :
    walkSpan read w inner.toList = .ok (w.html v) := by
  have hblank : inner.toList.all isSpace = false := h.nonblank
  simp only [walkSpan, hblank, Bool.false_eq_true, if_false, h.unmarked, String.ofList_toList, h.reads,
    hliteral]

/-- A static expression that is no literal is walked as a constant. -/
theorem walkSpan_of_constant (h : IsInterpolation read inner e) (hliteral : e.literal = none)
    (hstatic : e.isStatic = true) (w : Walk) :
    walkSpan read w inner.toList = .ok (w.constant e.code false) := by
  have hblank : inner.toList.all isSpace = false := h.nonblank
  simp only [walkSpan, hblank, Bool.false_eq_true, if_false, h.unmarked, String.ofList_toList, h.reads,
    hliteral, walkParts, hstatic, if_true]

/-- A text around an expression is walked in three steps. -/
theorem walked_around (h : IsInterpolation read inner e)
    (hbefore : Closed (fun _ => True) before.toList) (w : Walk) :
    walked read w (around before inner after).toList =
      (walked read w before.toList).bind fun w =>
        (walkSpan read w inner.toList).bind fun w => walked read w after.toList := by
  have htext : (around before inner after).toList =
      before.toList ++ '{' :: (inner.toList ++ '}' :: after.toList) := by simp [around]
  rw [htext, walked_append hbefore]
  simp only [walked_span h.matched]

/-- Where a text is read into parts, walking over it is walking over them. -/
theorem walked_of_interpolate {text : String} {parts : List Part}
    (h : interpolate read text = .ok parts) (w : Walk) :
    walked read w text.toList = .ok (walkText w (.parts parts)) := by
  rw [walked, show splitFrom read [] text.toList = .ok parts from h]
  rfl

/-- A text that is walked is read into parts, and walking over it is walking over them. -/
theorem interpolate_of_walked {text : String} {w w' : Walk} (h : walked read w text.toList = .ok w') :
    ∃ parts, interpolate read text = .ok parts ∧ w' = walkText w (.parts parts) := by
  unfold walked at h
  cases hparts : splitFrom read [] text.toList with
  | error f => simp [hparts, Except.map] at h
  | ok parts =>
      rw [hparts] at h
      exact ⟨parts, hparts, (Except.ok.inj h).symm⟩

/-- A text whose walk goes on is read into parts. -/
theorem exists_interpolate {text : String} {w w' : Walk} {next : Walk → Except Fault Walk}
    (h : (walked read w text.toList).bind next = .ok w') :
    ∃ parts, interpolate read text = .ok parts := by
  cases hwalked : walked read w text.toList with
  | error f => simp [hwalked, Except.bind] at h
  | ok w₁ =>
      obtain ⟨parts, hparts, -⟩ := interpolate_of_walked hwalked
      exact ⟨parts, hparts⟩

/-- **Folding a literal.**  Take a text with a literal in braces, and the same text with an expression
in its place that is not folded, reads no name and has the same value when the component runs.  Both
texts can be divided or neither, and they add the same markup but for one place: there the value of the
literal stands as it is, and the value of the expression is escaped.  So they agree exactly if nothing
in the value is escaped. -/
theorem walkText_folded (value : String → String) {inner' : String} {e' : Expression} {v : String}
    {parts : List Part} (hbefore : Closed (fun _ => True) before.toList)
    (h : IsInterpolation read inner e) (hliteral : e.literal = some v)
    (h' : IsInterpolation read inner' e') (hunfolded : e'.literal = none) (hstatic : e'.isStatic = true)
    (hvalue : value e'.code = v) (hparts : interpolate read (around before inner after) = .ok parts) :
    ∃ front parts', interpolate read before = .ok front ∧
      interpolate read (around before inner' after) = .ok parts' ∧
      ∀ w : Walk,
        (∃ back,
          (walkText w (.parts parts)).shown value =
            (walkText w (.parts front)).shown value ++ v ++ back ∧
          (walkText w (.parts parts')).shown value =
            (walkText w (.parts front)).shown value ++ contentText v ++ back) ∧
        ((walkText w (.parts parts)).shown value = (walkText w (.parts parts')).shown value ↔
          ∀ c ∈ v.toList, c ≠ '&' ∧ c ≠ '<' ∧ c ≠ '>') := by
  have hwalked := fun w => (walked_around h hbefore w).symm.trans (walked_of_interpolate hparts w)
  obtain ⟨front, hfront⟩ : ∃ front, interpolate read before = .ok front :=
    exists_interpolate (hwalked .fresh)
  have hspan : ∀ w, walked read ((walkText w (.parts front)).html v) after.toList =
      .ok (walkText w (.parts parts)) := by
    intro w
    rw [← hwalked w, walked_of_interpolate hfront]
    simp only [Except.bind, walkSpan_of_literal h hliteral]
  obtain ⟨rest, hrest⟩ : ∃ rest, interpolate read after = .ok rest := by
    obtain ⟨rest, hrest, -⟩ := interpolate_of_walked (hspan .fresh)
    exact ⟨rest, hrest⟩
  have hfolded : ∀ w, walkText w (.parts parts) =
      walkText ((walkText w (.parts front)).html v) (.parts rest) := fun w =>
    Except.ok.inj ((hspan w).symm.trans (walked_of_interpolate hrest _))
  have hwalked' : ∀ w, walked read w (around before inner' after).toList =
      .ok (walkText ((walkText w (.parts front)).constant e'.code false) (.parts rest)) := by
    intro w
    rw [walked_around h' hbefore, walked_of_interpolate hfront]
    simp only [Except.bind, walkSpan_of_constant h' hunfolded hstatic, walked_of_interpolate hrest]
  obtain ⟨parts', hparts', -⟩ := interpolate_of_walked (hwalked' .fresh)
  have hconstant : ∀ w, walkText w (.parts parts') =
      walkText ((walkText w (.parts front)).constant e'.code false) (.parts rest) := fun w =>
    Except.ok.inj ((walked_of_interpolate hparts' w).symm.trans (hwalked' w))
  refine ⟨front, parts', hfront, hparts', fun w => ?_⟩
  obtain ⟨back, hback, hback'⟩ := Walk.shown_walkParts value rest
    ((walkText w (.parts front)).html v) ((walkText w (.parts front)).constant e'.code false)
    (by simp [Walk.html, Walk.constant, Walk.map, Component.pushHtml, Component.pushConstant])
  rw [Walk.shown_html] at hback
  rw [Walk.shown_constant, Piece.shown, hvalue] at hback'
  have hleft : (walkText w (.parts parts)).shown value =
      (walkText w (.parts front)).shown value ++ v ++ back := by rw [hfolded, walkText, hback]
  have hright : (walkText w (.parts parts')).shown value =
      (walkText w (.parts front)).shown value ++ contentText v ++ back := by
    rw [hconstant, walkText, hback']
  refine ⟨⟨back, hleft, hright⟩, ?_⟩
  rw [← contentText_eq_self_iff, hleft, hright, ← String.toList_inj, ← String.toList_inj]
  simp [eq_comm]

end Folding

/-- Behind an expression with a name, `"x & y"` is folded and `"x" + " & y"` is not, and whatever the
walk has added before, the markup differs. -/
theorem walkText_folded_ampersand :
    let read := Script.javaScript.expression false
    let value := fun code => if code = "\"x\" + \" & y\"" then "x & y" else ""
    ∃ parts parts', interpolate read "\x7bn\x7d: \x7b\"x & y\"\x7d!" = .ok parts ∧
      interpolate read "\x7bn\x7d: \x7b\"x\" + \" & y\"\x7d!" = .ok parts' ∧
      (walkText .fresh (.parts parts)).shown value = "<!--ref:0-->: x & y!" ∧
      (walkText .fresh (.parts parts')).shown value = "<!--ref:0-->: x &amp; y!" ∧
      ∀ w, (walkText w (.parts parts)).shown value ≠ (walkText w (.parts parts')).shown value := by
  intro read value
  let name : Expression := ⟨"n", ["n"], [], .name, none⟩
  let sum : Expression := ⟨"\"x\" + \" & y\"", [], [], .other, none⟩
  have hbefore : Closed (fun _ => True) "\x7bn\x7d: ".toList :=
    @Closed.span _ ['n'] [':', ' '] (by unfold Matched; decide)
      (.char (by decide) trivial (.char (by decide) trivial .nil))
  have hliteral : IsInterpolation read "\"x & y\"" ⟨"\"x & y\"", [], [], .literal, some "x & y"⟩ :=
    ⟨by unfold Matched; decide, by decide, by decide, by decide +kernel⟩
  have hsum : IsInterpolation read "\"x\" + \" & y\"" sum :=
    ⟨by unfold Matched; decide, by decide, by decide, by decide +kernel⟩
  have hparts : interpolate read (around "\x7bn\x7d: " "\"x & y\"" "!") =
      .ok [.expression name false, .literal ": x & y!"] := by decide +kernel
  have hunfolded : interpolate read (around "\x7bn\x7d: " "\"x\" + \" & y\"" "!") =
      .ok [.expression name false, .literal ": ", .expression sum false, .literal "!"] := by
    decide +kernel
  obtain ⟨front, parts', -, hparts', hwalk⟩ := walkText_folded value hbefore hliteral rfl
    hsum rfl rfl rfl hparts
  obtain rfl := Except.ok.inj (hparts'.symm.trans hunfolded)
  refine ⟨_, _, hparts, hparts', by decide +kernel, by decide +kernel, fun w heq => ?_⟩
  have hplain := (hwalk w).2.mp heq '&' (by decide)
  exact absurd rfl hplain.1

/-- A tag in a string literal becomes a tag of the page. -/
theorem not_escaped_of_folded :
    let read := Script.javaScript.expression false
    let value := fun _ => "<b>"
    IsInterpolation read "\"<b>\"" ⟨"\"<b>\"", [], [], .literal, some "<b>"⟩ ∧
      interpolate read "\x7b\"<b>\"\x7d" = .ok [.literal "<b>"] ∧
      (walkText .fresh (.parts [.literal "<b>"])).shown value = "<b>" ∧
      contentText "<b>" = "&lt;b&gt;" :=
  ⟨⟨by unfold Matched; decide, by decide, by decide, by decide +kernel⟩, by decide +kernel,
    by decide +kernel, by decide⟩

end Stencil
