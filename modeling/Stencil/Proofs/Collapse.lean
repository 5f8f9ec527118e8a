import Mathlib.Data.List.Induction
import Stencil.Markup.Blank
import Stencil.Markup.Interpolation
import Stencil.Proofs.Tile

/-!
# Collapsed blanks and spans in braces

Writing each run of blanks as one space moves no brace and no quote, so the spans in braces of a
collapsed text are those of the text, collapsed (`spans_collapseFrom`).  What is cut off from a span,
the marker in front of its code and the spaces at its ends, is cut off in the same place
(`codeOf_collapseFrom`).  But the code itself is collapsed too, within its strings as well as
between its words.
-/

namespace Stencil.Markup

open Stencil.Text

/-- Whether a blank stands at the end of a text, or before it if it is empty. -/
def endsBlank (after : Bool) (cs : List Char) : Bool := cs.foldl (fun _ c => isBlank c) after

/-- Texts joined are collapsed one behind another. -/
theorem collapseFrom_append (after : Bool) (xs ys : List Char) :
    collapseFrom after (xs ++ ys) =
      collapseFrom after xs ++ collapseFrom (endsBlank after xs) ys := by
  induction xs generalizing after with
  | nil => rfl
  | cons c rest ih =>
      by_cases hc : isBlank c = true
      · cases after <;> simp [collapseFrom, endsBlank, hc, ih]
      · simp [collapseFrom, endsBlank, hc, ih]

/-- Collapsing twice is collapsing once. -/
theorem collapseFrom_collapseFrom (a b : Bool) (cs : List Char) :
    collapseFrom a (collapseFrom b cs) = collapseFrom (a || b) cs := by
  induction cs generalizing a b with
  | nil => rfl
  | cons c rest ih =>
      have hspace : isBlank ' ' = true := rfl
      by_cases hc : isBlank c = true
      · cases a <;> cases b <;> simp [collapseFrom, hc, hspace, ih]
      · simp [collapseFrom, hc, ih]

/-- Collapsing leaves a blank at the end where there was one. -/
theorem endsBlank_collapseFrom (a : Bool) (cs : List Char) :
    endsBlank a (collapseFrom a cs) = endsBlank a cs := by
  induction cs generalizing a with
  | nil => rfl
  | cons c rest ih =>
      have htail := ih (isBlank c)
      have hspace : isBlank ' ' = true := rfl
      by_cases hc : isBlank c = true
      · rw [hc] at htail
        cases a <;> simpa [collapseFrom, endsBlank, hc, hspace] using htail
      · rw [Bool.not_eq_true] at hc
        rw [hc] at htail
        simpa [collapseFrom, endsBlank, hc] using htail

/-- Texts that are collapsed, joined and collapsed again might as well be joined first. -/
theorem collapse_append (a b : String) : collapse (collapse a ++ collapse b) = collapse (a ++ b) := by
  simp only [collapse, String.toList_append, String.toList_ofList]
  rw [collapseFrom_append, collapseFrom_append, collapseFrom_collapseFrom,
    endsBlank_collapseFrom, collapseFrom_collapseFrom]
  simp

/-- The codes of spans in braces: what stands between the braces behind the marker, without the
spaces at its ends. -/
def codeOf (inner : List Char) : List Char := trimList (splitMarker inner).2

/-- The insides of the spans in braces of a text, one after another. -/
def spans (cs : List Char) : List (List Char) :=
  match h : cutBrace? cs with
  | none => []
  | some b =>
      have := length_cutBrace? h
      b.inner :: spans b.rest
termination_by cs.length

/-- A text with nothing to cut has no spans. -/
theorem spans_of_cutBrace?_eq_none {cs : List Char} (h : cutBrace? cs = none) : spans cs = [] := by
  rw [spans]
  split
  · rfl
  · next hcut => simp [h] at hcut

/-- The spans of a text are the one that is cut and those of the rest. -/
theorem spans_of_cutBrace?_eq_some {cs : List Char} {b : BraceCut} (h : cutBrace? cs = some b) :
    spans cs = b.inner :: spans b.rest := by
  rw [spans]
  split
  · next hcut => simp [h] at hcut
  · next b' hcut =>
      rw [h, Option.some.injEq] at hcut
      rw [hcut]

/-- A quotation mark is no blank. -/
theorem isQuote_ne_of_isBlank {q c : Char} (hq : isQuote q = true) (hc : isBlank c = true) :
    q ≠ c := by
  rintro rfl
  simp only [isQuote, Bool.or_eq_true, beq_iff_eq] at hq
  rcases hq with (rfl | rfl) | rfl <;> revert hc <;> decide

/-- A scan for a closing brace is inside of nothing but strings with proper quotes. -/
def Inside.Quoted : Inside → Prop
  | .code => True
  | .string quote => isQuote quote = true
  | .escape quote => isQuote quote = true

/-- A scan for a closing brace has just met a backslash. -/
def Inside.isEscape : Inside → Bool
  | .escape _ => true
  | _ => false

/-- A character closes the outermost brace, whatever follows, or takes the scan on to what
follows. -/
theorem closing_step (depth : Nat) {inside : Inside} (hquoted : inside.Quoted) (c : Char) :
    (∀ rest, closing depth inside (c :: rest) = some ([], rest)) ∨
      ∃ d i, i.Quoted ∧ ∀ rest,
        closing depth inside (c :: rest) = (closing d i rest).map fun p => (c :: p.1, p.2) := by
  cases inside with
  | escape quote => exact .inr ⟨depth, .string quote, hquoted, fun _ => rfl⟩
  | string quote =>
      refine .inr ⟨depth, afterInString quote c, ?_, fun _ => rfl⟩
      unfold afterInString
      split
      · exact hquoted
      · split
        · trivial
        · exact hquoted
  | code =>
      by_cases hclose : (c == '\x7d') = true
      · cases depth with
        | zero => exact .inl fun rest => by simp [closing, hclose]
        | succ d => exact .inr ⟨d, .code, trivial, fun rest => by simp [closing, hclose]⟩
      · by_cases hopen : (c == '\x7b') = true
        · exact .inr ⟨depth + 1, .code, trivial, fun rest => by simp [closing, hclose, hopen]⟩
        · by_cases hquote : isQuote c = true
          · exact .inr ⟨depth, .string c, hquote, fun rest => by
              simp [closing, hclose, hopen, hquote]⟩
          · exact .inr ⟨depth, .code, trivial, fun rest => by
              simp [closing, hclose, hopen, hquote]⟩

/-- A blank that is not escaped leaves the scan where it is. -/
theorem closing_blank (depth : Nat) {inside : Inside} (hquoted : inside.Quoted)
    (hescape : inside.isEscape = false) {c : Char} (hc : isBlank c = true) (rest : List Char) :
    closing depth inside (c :: rest) =
      (closing depth inside rest).map fun p => (c :: p.1, p.2) := by
  have hne : ∀ q, isBlank q = false → (c == q) = false := by
    intro q hq
    rw [beq_eq_false_iff_ne]
    rintro rfl
    rw [hc] at hq
    simp at hq
  cases inside with
  | escape quote => simp [Inside.isEscape] at hescape
  | string quote =>
      have hquote : (c == quote) = false := by
        rw [beq_eq_false_iff_ne]
        exact (isQuote_ne_of_isBlank hquoted hc).symm
      simp [closing, afterInString, hne '\\' rfl, hquote]
  | code =>
      have hquote : isQuote c = false := by
        rw [Bool.eq_false_iff]
        intro hq
        exact isQuote_ne_of_isBlank hq hc rfl
      simp [closing, hne '\x7d' rfl, hne '\x7b' rfl, hquote]

/-- The closing brace of a collapsed text is where it is in the text. -/
theorem closing_collapseFrom (depth : Nat) {inside : Inside} (hquoted : inside.Quoted)
    (after : Bool) (hescape : after = true → inside.isEscape = false) (cs : List Char) :
    closing depth inside (collapseFrom after cs) = (closing depth inside cs).map fun p =>
      (collapseFrom after p.1, collapseFrom false p.2) := by
  induction cs generalizing depth inside after with
  | nil => rfl
  | cons c rest ih =>
      have hspace : isBlank ' ' = true := rfl
      by_cases hc : isBlank c = true
      · cases after with
        | true =>
            rw [closing_blank depth hquoted (hescape rfl) hc]
            simp [collapseFrom, hc, ih depth hquoted true hescape, Function.comp_def]
        | false =>
            -- a blank behind a backslash ends the escape, and any blank does so
            cases inside with
            | escape quote =>
                have htail := ih depth (show (Inside.string quote).Quoted from hquoted) true fun _ => rfl
                simp [collapseFrom, hc, closing, htail, Function.comp_def]
            | _ =>
                have htail := ih depth hquoted true fun _ => rfl
                rw [closing_blank depth hquoted rfl hc, collapseFrom, if_pos hc, if_neg (by simp),
                  closing_blank depth hquoted rfl hspace, htail]
                simp [collapseFrom, hc, Function.comp_def]
      · rw [collapseFrom, if_neg hc]
        rcases closing_step depth hquoted c with hstop | ⟨d, i, hi, hgo⟩
        · simp [hstop, collapseFrom]
        · rw [hgo, hgo, ih d hi false (by simp)]
          simp [collapseFrom, hc, Function.comp_def]

/-- Cutting a text at a character that is no blank. -/
theorem collapseFrom_break {mark : Char} (hmark : isBlank mark = false) (after : Bool)
    (cs : List Char) :
    (collapseFrom after cs).takeWhile (· != mark) = collapseFrom after (cs.takeWhile (· != mark)) ∧
      (collapseFrom after cs).dropWhile (· != mark) =
        collapseFrom false (cs.dropWhile (· != mark)) := by
  induction cs generalizing after with
  | nil => exact ⟨rfl, rfl⟩
  | cons c rest ih =>
      have hne : ∀ b, isBlank b = true → (b != mark) = true := by
        intro b hb
        rw [bne_iff_ne]
        rintro rfl
        rw [hb] at hmark
        simp at hmark
      have hspace := hne ' ' rfl
      by_cases hc : isBlank c = true
      · cases after <;> simp [collapseFrom, hc, hne c hc, hspace, ih]
      · by_cases heq : (c != mark) = true
        · simp [collapseFrom, hc, heq, ih]
        · simp [collapseFrom, hc, heq]

/-- A collapsed text is cut where the text was, in collapsed pieces. -/
theorem cutBrace?_collapseFrom (after : Bool) (cs : List Char) :
    cutBrace? (collapseFrom after cs) = (cutBrace? cs).map fun b =>
      ⟨collapseFrom after b.before, collapseFrom false b.inner, collapseFrom false b.rest⟩ := by
  obtain ⟨hbefore, hafter⟩ := collapseFrom_break (show isBlank '\x7b' = false from rfl) after cs
  have hspan : ∀ xs : List Char, braceSpan (collapseFrom false (xs.dropWhile (· != '\x7b'))) =
      (braceSpan (xs.dropWhile (· != '\x7b'))).map fun p =>
        (collapseFrom false p.1, collapseFrom false p.2) := by
    intro xs
    cases hxs : xs.dropWhile (· != '\x7b') with
    | nil => rfl
    | cons c rest =>
        have hc : c = '\x7b' := by simpa using head_of_dropWhile hxs
        subst hc
        exact closing_collapseFrom 0 (show Inside.code.Quoted from trivial) false (by simp) rest
  rw [cutBrace?, cutBrace?, hbefore, hafter, hspan]
  cases braceSpan (cs.dropWhile (· != '\x7b')) <;> rfl

/-- The spans of a collapsed text are those of the text, collapsed. -/
theorem spans_collapseFrom (after : Bool) (cs : List Char) :
    spans (collapseFrom after cs) = (spans cs).map (collapseFrom false) := by
  fun_induction spans cs generalizing after with
  | case1 cs h => exact spans_of_cutBrace?_eq_none (by rw [cutBrace?_collapseFrom, h]; rfl)
  | case2 cs b h hlt ih =>
      have hcut := cutBrace?_collapseFrom after cs
      rw [h, Option.map_some] at hcut
      rw [spans_of_cutBrace?_eq_some hcut, ih, List.map_cons]

/-- Trimming the start after collapsing is collapsing what is trimmed. -/
theorem trimStartList_collapseFrom (after : Bool) (cs : List Char) :
    trimStartList (collapseFrom after cs) = collapseFrom false (trimStartList cs) := by
  induction cs generalizing after with
  | nil => rfl
  | cons c rest ih =>
      have hspace : isSpace ' ' = true := rfl
      simp only [trimStartList] at ih ⊢
      by_cases hc : isBlank c = true
      · cases after <;> simp [collapseFrom, hc, isSpace_of_isBlank hc, hspace, ih]
      · by_cases hs : isSpace c = true
        · simp [collapseFrom, hc, hs, ih]
        · simp [collapseFrom, hc, hs]

/-- Trimming the end after collapsing is collapsing what is trimmed. -/
theorem trimEndList_collapseFrom (after : Bool) (cs : List Char) :
    trimEndList (collapseFrom after cs) = collapseFrom after (trimEndList cs) := by
  induction cs using List.reverseRecOn with
  | nil => rfl
  | append_singleton cs c ih =>
      have hspace : isSpace ' ' = true := rfl
      rw [collapseFrom_append]
      by_cases hs : isSpace c = true
      · have htrim : trimEndList (cs ++ [c]) = trimEndList cs := by simp [trimEndList, hs]
        rw [htrim, ← ih]
        by_cases hc : isBlank c = true
        · cases endsBlank after cs <;> simp [collapseFrom, hc, trimEndList, hspace]
        · simp [collapseFrom, hc, trimEndList, hs]
      · have hc : isBlank c = false := by
          rw [Bool.eq_false_iff]
          intro hb
          exact hs (isSpace_of_isBlank hb)
        have htrim : trimEndList (cs ++ [c]) = cs ++ [c] := by simp [trimEndList, hs]
        rw [htrim, collapseFrom_append]
        simp [collapseFrom, hc, trimEndList, hs]

/-- Trimming after collapsing is collapsing what is trimmed. -/
theorem trimList_collapseFrom (after : Bool) (cs : List Char) :
    trimList (collapseFrom after cs) = collapseFrom false (trimList cs) := by
  rw [trimList, trimStartList_collapseFrom, trimEndList_collapseFrom, trimList]

/-- Collapsing leaves a word without blanks at the start of a text as it is. -/
theorem collapseFrom_word {word : List Char} (hword : ∀ c ∈ word, isBlank c = false)
    (rest : List Char) : collapseFrom false (word ++ rest) = word ++ collapseFrom false rest := by
  induction word with
  | nil => rfl
  | cons c more ih =>
      obtain ⟨hc, hmore⟩ := List.forall_mem_cons.mp hword
      simp [collapseFrom, hc, ih hmore]

/-- A word without blanks at the start of a collapsed text was there before. -/
theorem word_of_collapseFrom {word : List Char} (hword : ∀ c ∈ word, isBlank c = false)
    {cs rest : List Char} (h : collapseFrom false cs = word ++ rest) : word <+: cs := by
  induction word generalizing cs with
  | nil => exact List.nil_prefix
  | cons w more ih =>
      obtain ⟨hw, hmore⟩ := List.forall_mem_cons.mp hword
      cases cs with
      | nil => simp [collapseFrom] at h
      | cons c tail =>
          by_cases hc : isBlank c = true
          · simp only [collapseFrom, hc, if_true, Bool.false_eq_true, if_false, List.cons_append,
              List.cons.injEq] at h
            rw [← h.1] at hw
            exact absurd hw (by decide)
          · rw [collapseFrom, if_neg hc, List.cons_append, List.cons.injEq] at h
            rw [h.1, List.prefix_cons_inj]
            exact ih hmore h.2

/-- A word without blanks begins the collapsed text exactly if it begins the text. -/
theorem isPrefixOf_collapseFrom {word : List Char} (hword : ∀ c ∈ word, isBlank c = false)
    (cs : List Char) : word.isPrefixOf (collapseFrom false cs) = word.isPrefixOf cs := by
  rw [Bool.eq_iff_iff, List.isPrefixOf_iff_prefix, List.isPrefixOf_iff_prefix]
  constructor
  · rintro ⟨rest, hrest⟩
    exact word_of_collapseFrom hword hrest.symm
  · rintro ⟨rest, rfl⟩
    rw [collapseFrom_word hword]
    exact List.prefix_append _ _

/-- The marker of a collapsed span is that of the span. -/
theorem splitMarker_collapseFrom (inner : List Char) :
    splitMarker (collapseFrom false inner) =
      ((splitMarker inner).1, collapseFrom false (splitMarker inner).2) := by
  have hword : ∀ c ∈ htmlMarker.toList, isBlank c = false := by
    have hall : htmlMarker.toList.all (!isBlank ·) = true := by decide
    simpa using hall
  have hhead : ∀ cs : List Char,
      (collapseFrom false cs).head?.any isBlank = cs.head?.any isBlank := by
    intro cs
    cases cs with
    | nil => rfl
    | cons c rest =>
        by_cases hc : isBlank c = true
        · simp [collapseFrom, hc, show isBlank ' ' = true from rfl]
        · simp [collapseFrom, hc]
  simp only [splitMarker, trimStartList_collapseFrom, isPrefixOf_collapseFrom hword]
  by_cases hmarker : htmlMarker.toList.isPrefixOf (trimStartList inner) = true
  · obtain ⟨rest, hrest⟩ := List.isPrefixOf_iff_prefix.mp hmarker
    rw [← hrest, collapseFrom_word hword, List.drop_left, List.drop_left, hhead]
    split <;> rfl
  · simp [hmarker]

/-- **Code in braces is collapsed with the text around it.** -/
theorem codeOf_collapseFrom (inner : List Char) :
    codeOf (collapseFrom false inner) = collapseFrom false (codeOf inner) := by
  rw [codeOf, splitMarker_collapseFrom, trimList_collapseFrom, codeOf]

end Stencil.Markup
