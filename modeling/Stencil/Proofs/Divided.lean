import Mathlib.Logic.Function.Basic
import Stencil.Proofs.Balanced
import Stencil.Proofs.Clauses
import Stencil.Proofs.PrintedValues
import Stencil.Proofs.Scanned

/-!
# Texts divided, printed and divided again

Literal text is gathered while a text is divided, so the literal parts are neither empty nor next to
each other.  Printed, the parts are divided into the same parts again, unless a literal expression
that was folded into the text brings a brace: what stands in braces stays matched without the spaces
around it (`Matched.trimList`), and the rest is read as literal text wherever it stands (`Quiet`).
The reader of expressions is consulted just where the text has an interpolation.
-/

namespace Stencil.Markup

open Stencil.Text
open Stencil.Script (Fault Expression ReadsTrimmed readsTrimmed_javaScript)

/-- No literal expression that is folded into the text brings a brace. -/
def FoldsBraceless (read : String → Except Fault Expression) (cs : List Char) : Prop :=
  ∀ inner ∈ spans cs, (splitMarker inner).1 = false →
    ∀ folded ∈ (read (String.ofList inner)).toOption.bind Expression.literal, '\x7b' ∉ folded.toList

instance (read : String → Except Fault Expression) (cs : List Char) :
    Decidable (FoldsBraceless read cs) :=
  inferInstanceAs (Decidable (∀ inner ∈ spans cs, _ → _))

/-- The reader is consulted about a code: what becomes of the text depends on its answer. -/
def Consulted (read : String → Except Fault Expression) (text code : String) : Prop :=
  ∃ answer, interpolate (Function.update read code answer) text ≠ interpolate read text

def Part.isLiteral : Part → Bool
  | .literal _ => true
  | .expression .. => false

/-- Not both parts are literal text. -/
def Part.Apart (p q : Part) : Prop := p.isLiteral = false ∨ q.isLiteral = false

/-- The parts of a text. -/
structure Divided (read : String → Except Fault Expression) (text : String) (parts : List Part) :
    Prop where
  nonempty : Part.literal "" ∉ parts
  apart : parts.IsChain Part.Apart
  stable : FoldsBraceless read text.toList → interpolate read (printParts parts) = .ok parts

/-! ### Spaces inside braces -/

/-- Whether a scan for a closing brace goes on behind a character outside of strings as it did
before. -/
def isOrdinary (c : Char) : Bool := c != '\x7b' && c != '\x7d' && !isQuote c

/-- Blanks are ordinary characters. -/
theorem isOrdinary_of_isSpace {c : Char} (h : isSpace c = true) : isOrdinary c = true := by
  have hne : ∀ d, isSpace d = false → c ≠ d := by
    rintro d hd rfl
    rw [hd] at h
    cases h
  simp [isOrdinary, isQuote, hne '\x7b' rfl, hne '\x7d' rfl, hne '\'' rfl, hne '"' rfl, hne '\x60' rfl]

/-- An ordinary character stands in front of the closing brace like any other. -/
theorem closing_ordinary {c : Char} (hc : isOrdinary c = true) (depth : Nat) (rest : List Char) :
    closing depth .code (c :: rest) = (closing depth .code rest).map fun p => (c :: p.1, p.2) := by
  simp only [isOrdinary, Bool.and_eq_true, bne_iff_ne, Bool.not_eq_true'] at hc
  simp [closing, hc]

/-- Ordinary characters in front do not matter to whether the braces match. -/
theorem matched_append {front : List Char} (hfront : ∀ c ∈ front, isOrdinary c = true)
    (cs : List Char) :
    Matched (front ++ cs) ↔ Matched cs := by
  induction front with
  | nil => rfl
  | cons c front ih =>
      obtain ⟨hc, hmore⟩ := List.forall_mem_cons.mp hfront
      rw [← ih hmore, Matched, Matched, List.cons_append, List.cons_append, closing_ordinary hc,
        Option.map_eq_some_iff]
      simp

/-- A result that got its first character added is one without it. -/
theorem of_map_cons {c : Char} {found : Option (List Char × List Char)} {inner rest : List Char}
    (h : found.map (fun p => (c :: p.1, p.2)) = some (c :: inner, rest)) :
    found = some (inner, rest) := by
  obtain ⟨p, rfl, heq⟩ := Option.map_eq_some_iff.mp h
  simp only [Prod.mk.injEq, List.cons.injEq, true_and] at heq
  rw [← heq.1, ← heq.2]

/-- Behind blanks that end in a closing brace, the brace closes at once. -/
theorem closing_spaces {spaces : List Char} (hspaces : ∀ c ∈ spaces, isSpace c = true) {depth : Nat}
    {inside : Inside} (hquoted : inside.Quoted)
    (h : closing depth inside (spaces ++ ['\x7d']) = some (spaces, [])) :
    closing depth inside ['\x7d'] = some ([], []) := by
  induction spaces generalizing inside with
  | nil => exact h
  | cons c spaces ih =>
      obtain ⟨hc, hmore⟩ := List.forall_mem_cons.mp hspaces
      have hordinary := isOrdinary_of_isSpace hc
      rw [List.cons_append] at h
      cases inside with
      | code =>
          rw [closing_ordinary hordinary] at h
          exact ih hmore hquoted (of_map_cons h)
      | string quote =>
          have hstays : afterInString quote c = .string quote := by
            have hslash : c ≠ '\\' := by rintro rfl; revert hc; decide
            have hquote : c ≠ quote := by
              rintro rfl
              simp [isOrdinary, show isQuote c = true from hquoted] at hordinary
            simp [afterInString, hslash, hquote]
          rw [closing, hstays] at h
          exact ih hmore hquoted (of_map_cons h)
      | escape quote =>
          have hstring := ih hmore (show (Inside.string quote).Quoted from hquoted) (of_map_cons h)
          simp [closing] at hstring

/-- Spaces in front of the closing brace can be left out: no string is open there. -/
theorem closing_of_spaces {spaces : List Char} (hspaces : ∀ c ∈ spaces, isSpace c = true)
    (cs : List Char) (depth : Nat) {inside : Inside} (hquoted : inside.Quoted)
    (h : closing depth inside (cs ++ (spaces ++ ['\x7d'])) = some (cs ++ spaces, [])) :
    closing depth inside (cs ++ ['\x7d']) = some (cs, []) := by
  induction cs generalizing depth inside with
  | nil => exact closing_spaces hspaces hquoted h
  | cons c cs ih =>
      rcases closing_cons_cases depth hquoted c with ⟨rfl, rfl, rfl⟩ | ⟨d, i, ⟨hi, -, -⟩, hgo⟩
      · simp [closing] at h
      · rw [List.cons_append, hgo] at h ⊢
        rw [ih d hi (of_map_cons h)]
        rfl

/-- What stands in braces stays matched without the spaces in front of it. -/
theorem Matched.trimStartList {cs : List Char} (h : Matched cs) : Matched (trimStartList cs) := by
  have hfront : ∀ c ∈ cs.takeWhile isSpace, isOrdinary c = true :=
    fun c hc => isOrdinary_of_isSpace (List.mem_takeWhile_imp hc)
  rwa [← matched_append hfront, Text.trimStartList, List.takeWhile_append_dropWhile]

/-- What stands in braces stays matched without the spaces at its ends. -/
theorem Matched.trimList {cs : List Char} (h : Matched cs) : Matched (trimList cs) := by
  obtain ⟨back, hcut, hback⟩ := trimEndList_append_spaces (Text.trimStartList cs)
  have hstart := h.trimStartList
  rw [hcut, Matched, List.append_assoc] at hstart
  exact closing_of_spaces hback _ 0 (show Inside.code.Quoted from trivial) hstart

/-! ### Spans as they are printed -/

/-- Whether a text starts with the marker and a blank. -/
def startsMarked (cs : List Char) : Bool :=
  htmlMarker.toList.isPrefixOf cs && (cs.drop htmlMarker.toList.length).head?.any isBlank

/-- The marker is split off where the text starts with it behind blanks. -/
theorem splitMarker_eq (inner : List Char) : splitMarker inner =
    if startsMarked (trimStartList inner) then
      (true, (trimStartList inner).drop htmlMarker.toList.length)
    else (false, inner) := rfl

/-- Without a marker nothing is split off. -/
theorem splitMarker_of_unmarked {inner : List Char} (h : (splitMarker inner).1 = false) :
    splitMarker inner = (false, inner) := by
  rw [splitMarker_eq] at h ⊢
  split at h
  · cases h
  · next hmarked => rw [if_neg hmarked]

/-- Without a marker the code is what is inside, trimmed. -/
theorem codeOf_of_unmarked {inner : List Char} (h : (splitMarker inner).1 = false) :
    codeOf inner = trimList inner := by
  rw [codeOf, splitMarker_of_unmarked h]

/-- A text that starts with the marker does so with more behind it. -/
theorem startsMarked_append {cs : List Char} (h : startsMarked cs = true) (more : List Char) :
    startsMarked (cs ++ more) = true := by
  simp only [startsMarked, Bool.and_eq_true, List.isPrefixOf_iff_prefix] at h ⊢
  obtain ⟨⟨rest, rfl⟩, hblank⟩ := h
  rw [List.drop_left] at hblank
  refine ⟨by simp [List.append_assoc], ?_⟩
  rw [List.append_assoc, List.drop_left, List.head?_append]
  cases rest with
  | nil => simp at hblank
  | cons c rest => exact hblank

/-- The inside of the braces around a part as it is printed. -/
def printedInside (html : Bool) (code : List Char) : List Char :=
  (if html then "@html ".toList else []) ++ code

/-- An expression is printed in braces, with its marker. -/
theorem toList_print_expression (e : Expression) (html : Bool) :
    (Part.expression e html).print.toList =
      '\x7b' :: (printedInside html e.code.toList ++ ['\x7d']) := by
  cases html <;> simp [Part.print, printedInside]

/-- A printed part has the marker just as the span had that it was read from, and the same code. -/
theorem splitMarker_printedInside (inner : List Char) :
    ∃ code, splitMarker (printedInside (splitMarker inner).1 (codeOf inner)) =
        ((splitMarker inner).1, code) ∧
      trimList code = codeOf inner := by
  cases hmarked : (splitMarker inner).1 with
  | true =>
      refine ⟨' ' :: codeOf inner, rfl, ?_⟩
      rw [trimList_cons_space, codeOf, trimList_trimList]
  | false =>
      rw [codeOf_of_unmarked hmarked]
      refine ⟨trimList inner, ?_, trimList_trimList inner⟩
      have hstart : trimStartList (trimList inner) = trimList inner :=
        dropWhile_eq_self_iff_head?.mpr
          (trimList_eq_self_iff.mp (trimList_trimList inner)).1
      -- a marker at the start of what is left would have been found
      have hunmarked : startsMarked (trimList inner) = false := by
        obtain ⟨back, hcut, -⟩ := trimEndList_append_spaces (trimStartList inner)
        rw [Bool.eq_false_iff]
        intro h
        have hbefore := startsMarked_append h back
        rw [trimList, ← hcut] at hbefore
        rw [splitMarker_eq, if_pos hbefore] at hmarked
        cases hmarked
      show splitMarker (trimList inner) = _
      rw [splitMarker_eq, hstart, hunmarked, if_neg Bool.false_ne_true]

/-- What is printed inside the braces of an expression has matching braces. -/
theorem matched_printedInside {inner : List Char} (h : Matched inner) :
    Matched (printedInside (splitMarker inner).1 (codeOf inner)) := by
  have hmarker : ∀ c ∈ htmlMarker.toList, isOrdinary c = true :=
    List.all_eq_true.mp (show htmlMarker.toList.all isOrdinary = true by decide)
  have hprinted : ∀ c ∈ "@html ".toList, isOrdinary c = true :=
    List.all_eq_true.mp (show "@html ".toList.all isOrdinary = true by decide)
  rw [splitMarker_eq, codeOf, splitMarker_eq]
  split
  · next hmarked =>
      simp only [startsMarked, Bool.and_eq_true, List.isPrefixOf_iff_prefix] at hmarked
      obtain ⟨rest, hrest⟩ := hmarked.1
      have hstart := h.trimStartList
      rw [← hrest, matched_append hmarker] at hstart
      rw [← hrest, List.drop_left]
      exact (matched_append hprinted _).mpr hstart.trimList
  · exact h.trimList

/-- It is not blank if what was read is not. -/
theorem not_blank_printedInside {inner : List Char} (h : inner.all isSpace = false) :
    (printedInside (splitMarker inner).1 (codeOf inner)).all isSpace = false := by
  cases hmarked : (splitMarker inner).1 with
  | true => rfl
  | false =>
      have htrim : isSpaces (trim (String.ofList inner)) = false :=
        isSpaces_trim (by rwa [isSpaces, String.toList_ofList])
      rwa [isSpaces, trim, String.toList_ofList, String.toList_ofList,
        ← codeOf_of_unmarked hmarked] at htrim

/-! ### Literal text -/

/-- A text that is read as literal text, whatever stands around it. -/
def Quiet (read : String → Except Fault Expression) (text : List Char) : Prop :=
  ∀ literal rest, splitFrom read literal (text ++ rest) = splitFrom read (literal ++ text) rest

section Dividing

variable {read : String → Except Fault Expression}

theorem Quiet.nil : Quiet read [] := fun literal rest => by rw [List.nil_append, List.append_nil]

/-- Quiet texts joined are quiet. -/
theorem Quiet.append {a b : List Char} (ha : Quiet read a) (hb : Quiet read b) : Quiet read (a ++ b) :=
  fun literal rest => by rw [List.append_assoc, ha, hb, List.append_assoc]

/-- A text without an opening brace is quiet. -/
theorem quiet_of_braceless {text : List Char} (h : '\x7b' ∉ text) : Quiet read text := by
  induction text with
  | nil => exact .nil
  | cons c text ih =>
      rw [List.mem_cons, not_or] at h
      intro literal rest
      rw [List.cons_append, splitFrom_cons (Ne.symm h.1), ih h.2, List.append_assoc,
        List.singleton_append]

/-- Braces around nothing but spaces are literal text. -/
theorem quiet_blank {inner : List Char} (hinner : Matched inner) (hblank : inner.all isSpace = true) :
    Quiet read ('\x7b' :: (inner ++ ['\x7d'])) := by
  intro literal rest
  rw [List.cons_append, List.append_assoc, List.singleton_append,
    splitFrom_of_some (cutBrace?_span hinner rest), if_pos hblank]
  simp

/-- What stands around the first span. -/
theorem cutBrace?_parts {cs : List Char} {b : BraceCut} (h : cutBrace? cs = some b) :
    '\x7b' ∉ b.before ∧ Matched b.inner := by
  unfold cutBrace? at h
  split at h
  · next inner rest hspan =>
      obtain rfl := Option.some.inj h
      refine ⟨fun hmem => ?_, ?_⟩
      · simpa using List.mem_takeWhile_imp hmem
      · unfold braceSpan at hspan
        split at hspan
        · exact closing_inner hspan
        · cases hspan
  · cases h

/-- Parts are printed one after another. -/
theorem printParts_cons (part : Part) (parts : List Part) :
    printParts (part :: parts) = part.print ++ printParts parts := by
  simp [printParts]

/-- A literal part prints as its text. -/
theorem toList_printParts_literalPart (text : List Char) (parts : List Part) :
    (printParts (literalPart text ++ parts)).toList = text ++ (printParts parts).toList := by
  unfold literalPart
  split
  · next h => rw [List.isEmpty_iff.mp h, List.nil_append, List.nil_append]
  · simp [printParts_cons, Part.print]

/-- **One expression**: printed behind literal text, it is divided off again. -/
theorem splitFrom_printed (h : ReadsTrimmed read) {inner : List Char} (hinner : Matched inner)
    (hblank : inner.all isSpace = false) {e : Expression}
    (hread : read (String.ofList (splitMarker inner).2) = .ok e)
    (hkept : (splitMarker inner).1 = false → e.literal = none) (literal rest : List Char) :
    splitFrom read literal ((Part.expression e (splitMarker inner).1).print.toList ++ rest) =
      (splitFrom read [] rest).map fun parts =>
        literalPart literal ++ .expression e (splitMarker inner).1 :: parts := by
  have hcode : e.code.toList = codeOf inner := by
    rw [h.code hread, trim, String.toList_ofList, String.toList_ofList, codeOf]
  obtain ⟨code, hmarker, hsame⟩ := splitMarker_printedInside inner
  have hagain : read (String.ofList code) = .ok e := by
    rw [← hread, ← h.trimmed (String.ofList code), ← h.trimmed (String.ofList (splitMarker inner).2)]
    simp only [trim, String.toList_ofList, hsame, codeOf]
  have hcut := cutBrace?_span (matched_printedInside hinner) rest
  rw [toList_print_expression, hcode, List.cons_append, List.append_assoc, List.singleton_append,
    splitFrom_of_some hcut, not_blank_printedInside hblank, if_neg Bool.false_ne_true, hmarker, hagain]
  cases hmarked : (splitMarker inner).1 with
  | true => cases e.literal <;> cases splitFrom read [] rest <;> simp [Except.map]
  | false =>
      dsimp only
      rw [hkept hmarked]
      cases splitFrom read [] rest <;> simp [Except.map]

/-- The rest behind a braced expression folds as well. -/
theorem FoldsBraceless.rest {cs : List Char} {b : BraceCut} (h : FoldsBraceless read cs)
    (hcut : cutBrace? cs = some b) : FoldsBraceless read b.rest := by
  intro inner hinner
  apply h
  rw [spans_of_cutBrace?_eq_some hcut]
  exact List.mem_cons_of_mem _ hinner

/-- Printed, the parts of a text behind some literal text are divided into the same parts again. -/
theorem splitFrom_stable (h : ReadsTrimmed read) {literal cs : List Char} {parts : List Part}
    (hquiet : Quiet read literal) (hfolds : FoldsBraceless read cs)
    (hparts : splitFrom read literal cs = .ok parts) :
    splitFrom read [] (printParts parts).toList = .ok parts := by
  fun_induction splitFrom read literal cs generalizing parts with
  | case1 literal cs hcut =>
      obtain rfl := Except.ok.inj hparts
      have hprinted := toList_printParts_literalPart (literal ++ cs) []
      rw [List.append_nil] at hprinted
      rw [hprinted, show (printParts []).toList = [] from rfl, List.append_nil, hquiet,
        List.nil_append, splitFrom_of_none hcut]
  | case2 literal cs b hcut hlt before hblank =>
      rename_i ih
      obtain ⟨hbefore, hinner⟩ := cutBrace?_parts hcut
      refine ih ?_ (hfolds.rest hcut) hparts
      have hspan := (hquiet.append (quiet_of_braceless hbefore)).append (quiet_blank hinner hblank)
      rwa [← List.cons_append, ← List.append_assoc] at hspan
  | case3 => cases hparts
  | case4 literal cs b hcut hlt before hblank code e hread folded hfolded hsplit =>
      rename_i ih
      refine ih ?_ (hfolds.rest hcut) hparts
      have hunmarked : (splitMarker b.inner).1 = false := by rw [hsplit]
      obtain rfl : b.inner = code := by
        rw [splitMarker_of_unmarked hunmarked] at hsplit
        exact congrArg Prod.snd hsplit
      have hmem : b.inner ∈ spans cs := by
        rw [spans_of_cutBrace?_eq_some hcut]
        exact List.mem_cons_self
      have hbraceless := hfolds _ hmem hunmarked folded (by rw [hread]; exact hfolded)
      have hbefore : Quiet read b.before := quiet_of_braceless (cutBrace?_parts hcut).1
      exact (hquiet.append hbefore).append (quiet_of_braceless hbraceless)
  | case5 => cases hparts
  | case6 literal cs b hcut hlt before hblank html code hsplit e hread more hmore hkept =>
      rename_i ih
      obtain ⟨hbefore, hinner⟩ := cutBrace?_parts hcut
      obtain rfl := Except.ok.inj hparts
      obtain ⟨rfl, rfl⟩ : (splitMarker b.inner).1 = html ∧ (splitMarker b.inner).2 = code := by
        rw [hsplit]
        exact ⟨rfl, rfl⟩
      have hunfolded : (splitMarker b.inner).1 = false → e.literal = none := fun hunmarked =>
        Option.eq_none_iff_forall_ne_some.mpr fun folded hfolded => hkept folded hfolded hunmarked
      rw [toList_printParts_literalPart, printParts_cons, String.toList_append,
        hquiet.append (quiet_of_braceless hbefore), List.nil_append,
        splitFrom_printed h hinner (by simpa using hblank) hread hunfolded,
        ih .nil (hfolds.rest hcut) hmore]
      rfl

/-! ### Literal parts -/

/-- No literal part is empty. -/
theorem not_empty_literalPart (text : List Char) : Part.literal "" ∉ literalPart text := by
  unfold literalPart
  split
  · exact List.not_mem_nil
  · next hne =>
      rw [List.mem_singleton, Part.literal.injEq]
      intro h
      simp [← String.toList_inj] at h
      simp [h] at hne

/-- Literal text stands apart from an expression behind it. -/
theorem apart_literalPart (text : List Char) {e : Expression} {html : Bool} {parts : List Part}
    (h : parts.IsChain Part.Apart) :
    (literalPart text ++ .expression e html :: parts).IsChain Part.Apart := by
  have hexpression : (Part.expression e html :: parts).IsChain Part.Apart :=
    h.cons fun q _ => .inl rfl
  unfold literalPart
  split
  · exact hexpression
  · exact hexpression.cons fun q hq => .inr (by obtain rfl := Option.some.inj hq; rfl)

/-- Split text holds no empty literal and no two literals side by side. -/
theorem splitFrom_apart {literal cs : List Char} {parts : List Part}
    (h : splitFrom read literal cs = .ok parts) :
    Part.literal "" ∉ parts ∧ parts.IsChain Part.Apart := by
  fun_induction splitFrom read literal cs generalizing parts with
  | case1 literal cs hcut =>
      obtain rfl := Except.ok.inj h
      refine ⟨not_empty_literalPart _, ?_⟩
      unfold literalPart
      split <;> simp
  | case2 | case4 =>
      rename_i ih
      exact ih h
  | case3 | case5 => cases h
  | case6 literal cs b hcut hlt before hblank html code hsplit e hread more hmore hkept =>
      rename_i ih
      obtain rfl := Except.ok.inj h
      obtain ⟨hnonempty, hapart⟩ := ih hmore
      refine ⟨?_, apart_literalPart _ hapart⟩
      simp [not_empty_literalPart, hnonempty]

/-! ### What the reader is asked -/

/-- Plain text is one literal part. -/
theorem splitFrom_of_plain {cs : List Char} (h : holdsExpression cs = false) (literal : List Char) :
    splitFrom read literal cs = .ok (literalPart (literal ++ cs)) := by
  fun_induction holdsExpression cs generalizing literal with
  | case1 cs hcut => exact splitFrom_of_none hcut literal
  | case2 cs b hcut hlt ih =>
      rw [Bool.or_eq_false_iff, Bool.not_eq_false'] at h
      rw [splitFrom_of_some hcut, if_pos h.1, ih h.2]
      conv_rhs => rw [cutBrace?_eq hcut]
      simp

/-- Where the text has an interpolation there is a code that every reader is asked about. -/
theorem exists_refused {cs : List Char} (h : holdsExpression cs = true) :
    ∃ code, ∀ read fault literal, read code = .error fault →
      splitFrom read literal cs = .error fault := by
  fun_induction holdsExpression cs with
  | case1 => cases h
  | case2 cs b hcut hlt ih =>
      by_cases hblank : b.inner.all isSpace = true
      · obtain ⟨code, hcode⟩ := ih (by simpa [hblank] using h)
        refine ⟨code, fun read fault literal hread => ?_⟩
        rw [splitFrom_of_some hcut, if_pos hblank]
        exact hcode read fault _ hread
      · refine ⟨String.ofList (splitMarker b.inner).2, fun read fault literal hread => ?_⟩
        rw [splitFrom_of_some hcut, if_neg hblank, hread]

/-- A text has no interpolation exactly if no code in it is consulted. -/
theorem hasInterpolation_iff (text : String) :
    hasInterpolation text = false ↔ ∀ code, ¬ Consulted read text code := by
  constructor
  · rintro hplain code ⟨answer, hanswer⟩
    apply hanswer
    rw [interpolate, interpolate, splitFrom_of_plain hplain, splitFrom_of_plain hplain]
  · intro hnone
    rw [Bool.eq_false_iff]
    intro hholds
    obtain ⟨code, hcode⟩ := exists_refused hholds
    -- two refusals cannot both give what the reader gives
    have hrefused : ∀ fault,
        interpolate (Function.update read code (.error fault)) text = .error fault :=
      fun fault => hcode _ fault [] (Function.update_self ..)
    have hsame : ∀ fault, interpolate read text = .error fault := fun fault => by
      by_contra hother
      exact hnone code ⟨.error fault, by rw [hrefused]; exact Ne.symm hother⟩
    have hclash := (hsame .empty).symm.trans (hsame .invalidScript)
    cases hclash

/-- **Dividing a text.**  Literal parts are neither empty nor next to each other, and printed parts
are divided into the same parts again unless a folded literal brings a brace.  The reader is never
consulted exactly if the text has no interpolation, and then the text is its only part. -/
theorem interpolate_divided (h : ReadsTrimmed read) (text : String) :
    (∀ parts, interpolate read text = .ok parts → Divided read text parts) ∧
      (hasInterpolation text = false ↔ ∀ code, ¬ Consulted read text code) ∧
      (hasInterpolation text = false →
        interpolate read text = .ok (if text = "" then [] else [.literal text])) := by
  refine ⟨fun parts hparts => ?_, hasInterpolation_iff text, fun hplain => ?_⟩
  · obtain ⟨hnonempty, hapart⟩ := splitFrom_apart hparts
    exact ⟨hnonempty, hapart, fun hfolds => splitFrom_stable h .nil hfolds hparts⟩
  · rw [interpolate, splitFrom_of_plain hplain, List.nil_append, literalPart, String.ofList_toList]
    simp [List.isEmpty_iff]

end Dividing

/-- A blank span, a folded literal and a brace that is never closed among two expressions. -/
def mixedText : String := "a \x7b b \x7d\x7b \x7d\x7b'c'\x7d\x7b@html  d\x7d \x7be"

def mixedParts : List Part :=
  [.literal "a ", .expression ⟨"b", ["b"], [], .name, none⟩ false, .literal "\x7b \x7dc",
    .expression ⟨"d", ["d"], [], .name, none⟩ true, .literal " \x7be"]

theorem interpolate_divided_mixed :
    ReadsTrimmed (Script.javaScript.expression false) ∧
      interpolate (Script.javaScript.expression false) mixedText = .ok mixedParts ∧
      interpolate (Script.javaScript.expression false) (printParts mixedParts) = .ok mixedParts := by
  have hparts : interpolate (Script.javaScript.expression false) mixedText = .ok mixedParts := by
    decide +kernel
  have hfolds : FoldsBraceless (Script.javaScript.expression false) mixedText.toList := by
    decide +kernel
  refine ⟨readsTrimmed_javaScript false, hparts, ?_⟩
  have hdivided := (interpolate_divided (readsTrimmed_javaScript false) mixedText).1 _ hparts
  exact hdivided.stable hfolds

end Stencil.Markup
