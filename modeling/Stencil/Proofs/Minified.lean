import Stencil.Proofs.Lexemes
import Stencil.Proofs.Texts
import Stencil.Style.Print

/-!
# Minified texts

Minifying a text of a stylesheet drops blanks outside strings and nothing else.  What one character does
is said once (`Layout.Takes`).  What is left has no blanks but single spaces between characters that do
not absorb them (`Compact`), and a text is left as it is exactly if it has no others
(`minifyFrom_eq_self_iff`).  So minifying a text again changes nothing (`minify_dropsLayout`).
-/

namespace Stencil.Style

open Stencil.Text

/-- The marks that absorb blanks in declarations. -/
def declarationMarks : List Char := [':', ';', ',']

/-- The marks that absorb blanks in selectors. -/
def selectorMarks : List Char := [',', '>', '+', '~']

/-- Marks that are no blanks and begin no string, and no backslashes. -/
def PlainMarks (marks : List Char) : Prop :=
  ∀ c ∈ marks, isBlank c = false ∧ isStringMark c = false ∧ c ≠ '\\'

instance (marks : List Char) : Decidable (PlainMarks marks) := List.decidableBAll _ marks

/-- A character that keeps a space beside it. -/
def KeepsSpace (marks : List Char) (c : Char) : Prop := isBlank c = false ∧ c ∉ marks

/-- Outside strings the text has no blanks but single spaces, each of them between two characters that
keep it.  The text is read on from a quoting, behind the text `lead`. -/
def Compact (marks lead : List Char) (q : Quoting) (cs : List Char) : Prop :=
  ∀ before c after, cs = before ++ c :: after → isBlank c = true →
    before.foldl Quoting.toggle q = .none →
      c = ' ' ∧ (∃ x ∈ (lead ++ before).getLast?, KeepsSpace marks x) ∧
        ∃ y ∈ after.head?, KeepsSpace marks y

/-! ### One character -/

/-- Whether the text goes on inside a string. -/
def Layout.quoting (l : Layout) : Quoting :=
  match l.quote with
  | none => .none
  | some mark => .inside mark

/-- What a character does to the layout, and what is printed at it. -/
inductive Layout.Takes (marks : List Char) : Layout → Char → List Char → Layout → Prop
  | quoted (mark : Char) (spaced absorbs : Bool) (c : Char) :
      Takes marks ⟨some mark, spaced, absorbs⟩ c [c]
        ⟨if c = mark then none else some mark, spaced, absorbs⟩
  | blank {c : Char} (spaced absorbs : Bool) (hblank : isBlank c = true) :
      Takes marks ⟨none, spaced, absorbs⟩ c [] ⟨none, true, absorbs⟩
  | mark {c : Char} (spaced absorbs : Bool) (hblank : isBlank c = false) (hmark : c ∈ marks) :
      Takes marks ⟨none, spaced, absorbs⟩ c [c] ⟨none, false, true⟩
  | plain {c : Char} (spaced absorbs : Bool) (hkeeps : KeepsSpace marks c) :
      Takes marks ⟨none, spaced, absorbs⟩ c ((if spaced && !absorbs then [' '] else []) ++ [c])
        ⟨if isStringMark c then some c else none, false, false⟩

/-- **One character.**  Minifying goes on behind it from the layout that it leads to. -/
theorem minifyFrom_takes (marks : List Char) (l : Layout) (c : Char) : ∃ out l',
    l.Takes marks c out l' ∧
      ∀ rest, minifyFrom marks l (c :: rest) = out ++ minifyFrom marks l' rest := by
  obtain ⟨quote, spaced, absorbs⟩ := l
  cases quote with
  | some mark =>
      refine ⟨_, _, .quoted mark spaced absorbs c, fun rest => ?_⟩
      simp [minifyFrom]
  | none =>
      cases hblank : isBlank c with
      | true =>
          refine ⟨_, _, .blank spaced absorbs hblank, fun rest => ?_⟩
          simp [minifyFrom, hblank]
      | false =>
          by_cases hmark : c ∈ marks
          · refine ⟨_, _, .mark spaced absorbs hblank hmark, fun rest => ?_⟩
            simp [minifyFrom, hblank, hmark]
          · refine ⟨_, _, .plain spaced absorbs ⟨hblank, hmark⟩, fun rest => ?_⟩
            simp only [minifyFrom, hblank, List.contains_iff_mem, hmark]
            cases spaced <;> cases absorbs <;> simp [isStringMark]

variable {marks : List Char} {l l' : Layout} {c m : Char} {out : List Char}

/-- A blank is no string mark. -/
theorem isStringMark_of_isBlank (h : isBlank c = true) : isStringMark c = false := by
  rw [← Bool.not_eq_true, isStringMark]
  intro hmark
  rcases (by simpa using hmark : c = '"' ∨ c = '\'') with rfl | rfl <;> exact absurd h (by decide)

/-- Beside a string mark a space is kept. -/
theorem PlainMarks.keepsSpace (h : PlainMarks marks) (hmark : isStringMark m = true) :
    KeepsSpace marks m := by
  constructor
  · cases hblank : isBlank m with
    | false => rfl
    | true =>
        rw [isStringMark_of_isBlank hblank] at hmark
        exact absurd hmark Bool.false_ne_true
  · intro hmem
    rw [(h m hmem).2.1] at hmark
    exact absurd hmark Bool.false_ne_true

/-- The only character that can be pending is a space. -/
theorem eq_space_of_mem {pending : Bool} {x : Char} (h : x ∈ if pending then [' '] else []) :
    x = ' ' := by
  cases pending with
  | false => simp at h
  | true => exact List.mem_singleton.mp h

/-- Inside a string no space is pending, and its mark begins strings. -/
def Layout.Sound (l : Layout) : Prop :=
  ∀ mark ∈ l.quote, isStringMark mark = true ∧ l.spaced = false ∧ l.absorbs = false

/-- Outside strings any layout is sound. -/
theorem Layout.sound_outside (spaced absorbs : Bool) : Layout.Sound ⟨none, spaced, absorbs⟩ := by
  simp [Sound]

namespace Layout.Takes

/-- The minifier reads strings without escapes. -/
theorem quoting (h : l.Takes marks c out l') (hplain : PlainMarks marks) :
    l'.quoting = l.quoting.toggle c := by
  cases h with
  | quoted mark spaced absorbs =>
      by_cases hc : c = mark <;> simp [Layout.quoting, Quoting.toggle, hc]
  | blank spaced absorbs hblank =>
      exact (Quoting.toggle_of_not_mark (isStringMark_of_isBlank hblank)).symm
  | mark spaced absorbs hblank hmark =>
      exact (Quoting.toggle_of_not_mark (hplain c hmark).2.1).symm
  | plain spaced absorbs hkeeps =>
      cases hc : isStringMark c <;> simp [Layout.quoting, Quoting.toggle, hc]

/-- A character keeps a layout sound. -/
theorem sound (h : l.Takes marks c out l') (hl : l.Sound) : l'.Sound := by
  cases h with
  | quoted mark spaced absorbs =>
      intro mark' hmark'
      by_cases hc : c = mark
      · simp [hc] at hmark'
      · exact hl mark' (by simpa [hc] using hmark')
  | blank spaced absorbs hblank => exact sound_outside true absorbs
  | mark spaced absorbs hblank hmark => exact sound_outside false true
  | plain spaced absorbs hkeeps =>
      intro mark' hmark'
      by_cases hc : isStringMark c = true
      · obtain rfl : c = mark' := by simpa [hc] using hmark'
        exact ⟨hc, rfl, rfl⟩
      · simp [hc] at hmark'

/-- Nothing but the character and spaces is printed. -/
theorem eq_of_mem (h : l.Takes marks c out l') {x : Char} (hx : x ∈ out) : x = ' ' ∨ x = c := by
  cases h with
  | quoted mark spaced absorbs => exact .inr (List.mem_singleton.mp hx)
  | blank spaced absorbs hblank => simp at hx
  | mark spaced absorbs hblank hmark => exact .inr (List.mem_singleton.mp hx)
  | plain spaced absorbs hkeeps =>
      rw [List.mem_append, List.mem_singleton] at hx
      exact hx.imp_left eq_space_of_mem

end Layout.Takes

/-- **A run.**  What is printed for a text does not depend on what follows. -/
theorem minifyFrom_append (hplain : PlainMarks marks) (hl : l.Sound) (cs : List Char) : ∃ l' : Layout,
    l'.Sound ∧ l'.quoting = cs.foldl Quoting.toggle l.quoting ∧
      ∀ rest, minifyFrom marks l (cs ++ rest) = minifyFrom marks l cs ++ minifyFrom marks l' rest := by
  induction cs generalizing l with
  | nil => exact ⟨l, hl, rfl, fun _ => rfl⟩
  | cons c cs ih =>
      obtain ⟨out, next, htakes, heq⟩ := minifyFrom_takes marks l c
      obtain ⟨l', hl', hquoting, hrest⟩ := ih (htakes.sound hl)
      refine ⟨l', hl', ?_, fun rest => ?_⟩
      · rw [hquoting, htakes.quoting hplain, List.foldl_cons]
      · rw [List.cons_append, heq, heq, hrest, List.append_assoc]

/-! ### Compact texts -/

variable {lead cs : List Char} {q : Quoting}

theorem compact_nil : Compact marks lead q [] := by
  intro before c after h
  simp at h

/-- A text is compact exactly if each space in it separates two characters that need it. -/
theorem compact_cons_iff {rest : List Char} : Compact marks lead q (c :: rest) ↔
    (isBlank c = true → q = .none → c = ' ' ∧ (∃ x ∈ lead.getLast?, KeepsSpace marks x) ∧
      ∃ y ∈ rest.head?, KeepsSpace marks y) ∧ Compact marks [c] (q.toggle c) rest := by
  have hlast : ∀ before : List Char, (lead ++ c :: before).getLast? = ([c] ++ before).getLast? :=
    fun before => List.getLast?_append_of_ne_nil lead (List.cons_ne_nil c before)
  constructor
  · intro h
    refine ⟨fun hblank hq => by simpa using h [] c rest rfl hblank hq, ?_⟩
    intro before d after heq hblank hq
    rw [← hlast]
    exact h (c :: before) d after (by rw [heq]; rfl) hblank hq
  · rintro ⟨hfirst, hrest⟩ before d after heq hblank hq
    cases before with
    | nil =>
        obtain ⟨rfl, rfl⟩ := List.cons.inj heq
        rw [List.append_nil]
        exact hfirst hblank hq
    | cons b before =>
        obtain ⟨rfl, rfl⟩ := List.cons.inj heq
        rw [hlast]
        exact hrest before d after rfl hblank hq

/-- What stands in front does not matter for a text that does not start with a blank. -/
theorem compact_cons_congr {rest lead' : List Char} (h : isBlank c = false) :
    Compact marks lead q (c :: rest) ↔ Compact marks lead' q (c :: rest) := by
  simp [compact_cons_iff, h]

/-- **What is printed is compact**, if a space may stand in front of it only where the text in front
keeps it. -/
theorem compact_minifyFrom (hplain : PlainMarks marks) (hl : l.Sound)
    (hlead : l.quote = none → l.absorbs = false → ∃ x ∈ lead.getLast?, KeepsSpace marks x)
    (cs : List Char) : Compact marks lead l.quoting (minifyFrom marks l cs) := by
  induction cs generalizing l lead with
  | nil => exact compact_nil
  | cons c rest ih =>
      obtain ⟨out, l', htakes, heq⟩ := minifyFrom_takes marks l c
      have hl' := htakes.sound hl
      have hquoting := htakes.quoting hplain
      rw [heq]
      cases htakes with
      | quoted mark spaced absorbs =>
          rw [List.singleton_append, compact_cons_iff, ← hquoting]
          refine ⟨fun _ hnone => by simp [Layout.quoting] at hnone, ih hl' fun hclosed _ => ?_⟩
          obtain rfl : c = mark := by simpa using hclosed
          exact ⟨c, rfl, hplain.keepsSpace (hl c rfl).1⟩
      | blank spaced absorbs hblank => exact ih hl' hlead
      | mark spaced absorbs hblank hmark =>
          rw [List.singleton_append, compact_cons_iff, ← hquoting]
          exact ⟨fun h => by simp [hblank] at h, ih hl' fun _ h => by simp at h⟩
      | plain spaced absorbs hkeeps =>
          have hrest : Compact marks lead .none (c :: minifyFrom marks
              ⟨if isStringMark c then some c else none, false, false⟩ rest) := by
            rw [compact_cons_iff]
            refine ⟨fun h => by simp [hkeeps.1] at h, ?_⟩
            rw [show Quoting.none.toggle c = _ from hquoting.symm]
            exact ih hl' fun _ _ => ⟨c, rfl, hkeeps⟩
          by_cases hspace : (spaced && !absorbs) = true
          · rw [if_pos hspace, List.append_assoc, List.singleton_append, List.singleton_append,
              compact_cons_iff]
            have habsorbs : absorbs = false := by simpa using (Bool.and_eq_true_iff.mp hspace).2
            exact ⟨fun _ _ => ⟨rfl, hlead rfl habsorbs, c, rfl, hkeeps⟩,
              (compact_cons_congr hkeeps.1).mp hrest⟩
          · rw [if_neg hspace, List.nil_append, List.singleton_append]
            exact hrest

/-- **A compact text is left as it is**, if spaces are kept behind the text in front of it where it keeps
them; a space that is pending is printed first. -/
theorem minifyFrom_of_compact (hplain : PlainMarks marks) (hl : l.Sound)
    (hlead : (∃ x ∈ lead.getLast?, KeepsSpace marks x) → l.absorbs = false)
    (hspaced : l.spaced = true → l.quote = none ∧ l.absorbs = false ∧
      ∃ y ∈ cs.head?, KeepsSpace marks y)
    (h : Compact marks lead l.quoting cs) :
    minifyFrom marks l cs = (if l.spaced then [' '] else []) ++ cs := by
  induction cs generalizing l lead with
  | nil =>
      have hnone : l.spaced = false := by
        rw [← Bool.not_eq_true]
        intro hs
        simpa using (hspaced hs).2.2
      simp [minifyFrom, hnone]
  | cons c rest ih =>
      obtain ⟨out, l', htakes, heq⟩ := minifyFrom_takes marks l c
      have hl' := htakes.sound hl
      rw [compact_cons_iff, ← htakes.quoting hplain] at h
      obtain ⟨hfirst, hrest⟩ := h
      have hnone : ¬ KeepsSpace marks c → l.spaced = false := by
        intro hkeeps
        rw [← Bool.not_eq_true]
        intro hs
        obtain ⟨-, -, y, hy, hy'⟩ := hspaced hs
        obtain rfl : c = y := by simpa using hy
        exact hkeeps hy'
      have hbehind : ¬ KeepsSpace marks c → ¬ ∃ x ∈ [c].getLast?, KeepsSpace marks x := by
        rintro hkeeps ⟨x, hx, hx'⟩
        obtain rfl : c = x := by simpa using hx
        exact hkeeps hx'
      rw [heq]
      cases htakes with
      | quoted mark spaced absorbs =>
          obtain ⟨-, hspaced', habsorbs⟩ := hl mark rfl
          obtain rfl : spaced = false := hspaced'
          rw [ih hl' (fun _ => habsorbs) (by simp) hrest]
          rfl
      | blank spaced absorbs hblank =>
          have hkeeps : ¬ KeepsSpace marks c := fun h => by simp [h.1] at hblank
          obtain rfl : spaced = false := hnone hkeeps
          obtain ⟨rfl, hkept, hnext⟩ := hfirst hblank rfl
          rw [ih hl' (fun h => absurd h (hbehind hkeeps)) (fun _ => ⟨rfl, hlead hkept, hnext⟩) hrest]
          rfl
      | mark spaced absorbs hblank hmark =>
          have hkeeps : ¬ KeepsSpace marks c := fun h => h.2 hmark
          obtain rfl : spaced = false := hnone hkeeps
          rw [ih hl' (fun h => absurd h (hbehind hkeeps)) (by simp) hrest]
          rfl
      | plain spaced absorbs hkeeps =>
          rw [ih hl' (fun _ => rfl) (by simp) hrest]
          cases spaced with
          | false => rfl
          | true =>
              obtain rfl : absorbs = false := (hspaced rfl).2.1
              rfl

/-- **Compact texts are those that minifying leaves as they are.** -/
theorem minifyFrom_eq_self_iff (hplain : PlainMarks marks) (hl : l.Sound) (hspaced : l.spaced = false)
    (hlead : l.quote = none → (l.absorbs = false ↔ ∃ x ∈ lead.getLast?, KeepsSpace marks x)) :
    minifyFrom marks l cs = cs ↔ Compact marks lead l.quoting cs := by
  constructor
  · intro h
    rw [← h]
    exact compact_minifyFrom hplain hl (fun hquote => (hlead hquote).mp) cs
  · intro h
    have hbehind : (∃ x ∈ lead.getLast?, KeepsSpace marks x) → l.absorbs = false := by
      intro hkeeps
      cases hquote : l.quote with
      | none => exact (hlead hquote).mpr hkeeps
      | some mark => exact (hl mark hquote).2.2
    rw [minifyFrom_of_compact hplain hl hbehind (by simp [hspaced]) h, hspaced]
    rfl

section Whole

variable (hplain : PlainMarks marks)

include hplain

/-- What is minified is compact. -/
theorem compact_minifyChars (cs : List Char) : Compact marks [] .none (minifyChars marks cs) :=
  compact_minifyFrom hplain (Layout.sound_outside false true) (fun _ h => absurd h (by simp)) cs

/-- Minifying leaves alone exactly the compact texts. -/
theorem minifyChars_eq_self_iff : minifyChars marks cs = cs ↔ Compact marks [] .none cs :=
  minifyFrom_eq_self_iff hplain (Layout.sound_outside false true) rfl (by simp)

/-- **Minifying again** changes nothing. -/
theorem minifyChars_minifyChars (cs : List Char) :
    minifyChars marks (minifyChars marks cs) = minifyChars marks cs :=
  (minifyChars_eq_self_iff hplain).mpr (compact_minifyChars hplain cs)

end Whole

/-! ### What is kept -/

/-- A lexeme that is no blank. -/
def Lexeme.isInk : Lexeme → Bool
  | .char c => !isBlank c
  | .string _ => true

/-- **Lexemes are kept**: the characters outside strings that are no blanks, and the strings as the
minifier reads them. -/
theorem filter_lexemesFrom_minifyFrom (hplain : PlainMarks marks) {read : List Char}
    (hread : l.quote = none → read = []) (cs : List Char) :
    (lexemesFrom Quoting.toggle l.quoting read (minifyFrom marks l cs)).filter Lexeme.isInk =
      (lexemesFrom Quoting.toggle l.quoting read cs).filter Lexeme.isInk := by
  induction cs generalizing l read with
  | nil => rfl
  | cons c rest ih =>
      obtain ⟨out, l', htakes, heq⟩ := minifyFrom_takes marks l c
      have hquoting := htakes.quoting hplain
      rw [heq]
      -- a character that is printed is read alike in both texts
      have hsame : (lexemesFrom Quoting.toggle l.quoting read
          (c :: minifyFrom marks l' rest)).filter Lexeme.isInk =
            (lexemesFrom Quoting.toggle l.quoting read (c :: rest)).filter Lexeme.isInk := by
        obtain ⟨done, read', hread', hcons⟩ := lexemesFrom_cons Quoting.toggle l.quoting read c
        have hempty : l'.quote = none → read' = [] := fun hnone => hread' (by
          rw [← hquoting, Layout.quoting, hnone])
        rw [hcons, hcons, List.filter_append, List.filter_append, ← hquoting, ih hempty]
      -- a blank that is read outside strings leaves no trace
      have hskip : ∀ (d : Char) (text : List Char), isBlank d = true →
          (lexemesFrom Quoting.toggle .none [] (d :: text)).filter Lexeme.isInk =
            (lexemesFrom Quoting.toggle .none [] text).filter Lexeme.isInk := by
        intro d text hd
        rw [lexemesFrom_char (Quoting.toggle_of_not_mark (isStringMark_of_isBlank hd)),
          List.filter_cons_of_neg (by simp [Lexeme.isInk, hd]), lexemes]
      cases htakes with
      | quoted mark spaced absorbs => exact hsame
      | blank spaced absorbs hblank =>
          obtain rfl : read = [] := hread rfl
          have hrest := @ih ⟨none, true, absorbs⟩ [] fun _ => rfl
          exact hrest.trans (hskip c rest hblank).symm
      | mark spaced absorbs hblank hmark => exact hsame
      | plain spaced absorbs hkeeps =>
          obtain rfl : read = [] := hread rfl
          split
          · exact (hskip ' ' _ (by decide)).trans hsame
          · exact hsame

/-- Nothing but layout is dropped: outside strings the same characters are left but for blanks, the
strings are the same, and there are no more blanks than needed. -/
structure DropsLayout (marks cs out : List Char) : Prop where
  lexemes : (lexemes Quoting.toggle out).filter Lexeme.isInk =
    (lexemes Quoting.toggle cs).filter Lexeme.isInk
  compact : Compact marks [] .none out

/-- Minifying drops layout only. -/
theorem dropsLayout_minifyChars (hplain : PlainMarks marks) (cs : List Char) :
    DropsLayout marks cs (minifyChars marks cs) where
  lexemes := @filter_lexemesFrom_minifyFrom marks {} hplain [] (fun _ => rfl) cs
  compact := compact_minifyChars hplain cs

/-- The marks of declarations are plain. -/
theorem plainMarks_declaration : PlainMarks declarationMarks := by decide

/-- The marks of selectors are plain. -/
theorem plainMarks_selector : PlainMarks selectorMarks := by decide

/-! ### Semicolons -/

/-- A text is a run of one character and a rest that does not begin with it. -/
theorem exists_replicate_dropWhile (c : Char) (cs : List Char) : ∃ n,
    cs = List.replicate n c ++ cs.dropWhile (· == c) ∧
      (cs.dropWhile (· == c)).head? ≠ some c := by
  refine ⟨(cs.takeWhile (· == c)).length, ?_, fun h => ?_⟩
  · have hsame : cs.takeWhile (· == c) = List.replicate (cs.takeWhile (· == c)).length c :=
      List.eq_replicate_of_mem fun d hd => by simpa using List.mem_takeWhile_imp hd
    rw [← hsame, List.takeWhile_append_dropWhile]
  · have hnot := List.head?_dropWhile_not (· == c) cs
    rw [h] at hnot
    simp at hnot

/-- Declarations are minified without the semicolons at both ends. -/
theorem toList_minifyDeclarations (text : String) : (minifyDeclarations text).toList =
    (((minifyChars declarationMarks text.toList).reverse.dropWhile (· == ';')).reverse).dropWhile
      (· == ';') := by
  simp [minifyDeclarations, declarationMarks]

/-- Declarations are the minified text without the semicolons at both ends. -/
theorem exists_semicolons (text : String) : ∃ front back,
    minifyChars declarationMarks text.toList = List.replicate front ';' ++
      (minifyDeclarations text).toList ++ List.replicate back ';' ∧
    (minifyDeclarations text).toList.head? ≠ some ';' ∧
    (minifyDeclarations text).toList.getLast? ≠ some ';' := by
  have hout := toList_minifyDeclarations text
  obtain ⟨back, hback, hlast⟩ :=
    exists_replicate_dropWhile ';' (minifyChars declarationMarks text.toList).reverse
  set kept := (minifyChars declarationMarks text.toList).reverse.dropWhile (· == ';')
  obtain ⟨front, hfront, hhead⟩ := exists_replicate_dropWhile ';' kept.reverse
  rw [← hout] at hfront hhead
  refine ⟨front, back, ?_, hhead, fun h => hlast ?_⟩
  · rw [← hfront, ← List.reverse_reverse (minifyChars _ _), hback, List.reverse_append,
      List.reverse_replicate]
  · rw [← List.getLast?_reverse, hfront, List.getLast?_append, h]
    rfl

/-- Without the semicolons at its ends a compact text is compact. -/
theorem compact_of_semicolons {front back : Nat} {cs : List Char}
    (h : Compact declarationMarks [] .none
      (List.replicate front ';' ++ cs ++ List.replicate back ';')) :
    Compact declarationMarks [] .none cs := by
  have hout : ∀ {x : Char} {n : Nat}, x ∈ List.replicate n ';' → ¬ KeepsSpace declarationMarks x := by
    intro x n hx hkeeps
    obtain rfl := List.eq_of_mem_replicate hx
    exact hkeeps.2 (by decide)
  have hfold : (List.replicate front ';').foldl Quoting.toggle .none = .none := by
    clear h
    induction front with
    | zero => rfl
    | succ n ih => exact ih
  intro before c after heq hblank hq
  obtain ⟨hc, ⟨x, hx, hx'⟩, y, hy, hy'⟩ := h (List.replicate front ';' ++ before) c
    (after ++ List.replicate back ';') (by simp [heq]) hblank (by rw [List.foldl_append, hfold, hq])
  refine ⟨hc, ⟨x, ?_, hx'⟩, y, ?_, hy'⟩
  · rw [List.nil_append, List.getLast?_append] at hx
    cases hbefore : before.getLast? with
    | none =>
        rw [hbefore] at hx
        exact absurd hx' (hout (List.mem_of_getLast? hx))
    | some z =>
        rw [hbefore] at hx
        rwa [List.nil_append, hbefore]
  · rw [List.head?_append] at hy
    cases hafter : after.head? with
    | none =>
        rw [hafter] at hy
        exact absurd hy' (hout (List.mem_of_head? hy))
    | some z =>
        rw [hafter] at hy
        exact hy

/-- Minified declarations are compact. -/
theorem compact_minifyDeclarations (text : String) :
    Compact declarationMarks [] .none (minifyDeclarations text).toList := by
  obtain ⟨front, back, htext, -⟩ := exists_semicolons text
  have h := compact_minifyChars plainMarks_declaration text.toList
  rw [htext] at h
  exact compact_of_semicolons h

/-- Compact declarations with no semicolon at either end stay as they are. -/
theorem minifyDeclarations_of_compact {text : String}
    (h : Compact declarationMarks [] .none text.toList) (hhead : text.toList.head? ≠ some ';')
    (hlast : text.toList.getLast? ≠ some ';') : minifyDeclarations text = text := by
  have hkeep : ∀ {cs : List Char}, cs.head? ≠ some ';' → cs.dropWhile (· == ';') = cs := by
    intro cs hcs
    refine dropWhile_eq_self_iff_head?.mpr fun c hc => beq_eq_false_iff_ne.mpr ?_
    rintro rfl
    exact hcs hc
  have hback : text.toList.reverse.dropWhile (· == ';') = text.toList.reverse :=
    hkeep (by rwa [List.head?_reverse])
  rw [← String.toList_inj, toList_minifyDeclarations,
    (minifyChars_eq_self_iff plainMarks_declaration).mpr h, hback, List.reverse_reverse, hkeep hhead]

/-- **Minifying only drops layout**, and a second time it drops nothing.  Where the semicolons at the
ends of declarations are put back, there are the same characters outside strings but for blanks, and the
same strings. -/
theorem minify_dropsLayout (text : String) :
    minifySelector (minifySelector text) = minifySelector text ∧
    minifyDeclarations (minifyDeclarations text) = minifyDeclarations text ∧
    DropsLayout selectorMarks text.toList (minifySelector text).toList ∧
    Compact declarationMarks [] .none (minifyDeclarations text).toList ∧
    (minifyDeclarations text).toList.head? ≠ some ';' ∧
    (minifyDeclarations text).toList.getLast? ≠ some ';' ∧
    ∃ front back, DropsLayout declarationMarks text.toList
      (List.replicate front ';' ++ (minifyDeclarations text).toList ++ List.replicate back ';') := by
  have hselector : ∀ t : String, (minifySelector t).toList = minifyChars selectorMarks t.toList :=
    fun _ => String.toList_ofList
  obtain ⟨front, back, htext, hhead, hlast⟩ := exists_semicolons text
  have hcompact := compact_minifyDeclarations text
  refine ⟨?_, minifyDeclarations_of_compact hcompact hhead hlast, ?_, hcompact, hhead, hlast, front,
    back, ?_⟩
  · rw [← String.toList_inj, hselector, hselector, minifyChars_minifyChars plainMarks_selector]
  · rw [hselector]
    exact dropsLayout_minifyChars plainMarks_selector text.toList
  · rw [← htext]
    exact dropsLayout_minifyChars plainMarks_declaration text.toList

end Stencil.Style
