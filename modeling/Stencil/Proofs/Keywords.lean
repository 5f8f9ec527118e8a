import Mathlib.Data.List.Induction
import Mathlib.Data.List.Infix
import Stencil.Markup.Keyword

/-!
# Searching for a keyword piece by piece

A keyword is searched for from left to right, and all that the search knows of the text it has passed
is where it is: how deep in brackets, inside of what, and behind which character.  So a text can be
searched piece by piece.  Where a piece leaves no bracket and no string open and does not hold the
keyword, and a character that is part of no word stands behind it, the search goes on as if it had
just begun (`keywordFrom_pieces`).
-/

namespace Stencil.Markup

open Stencil.Text

/-- Where a search is after one more character: its depth in brackets and what it is inside of. -/
def passed (place : Int × Inside) (c : Char) : Int × Inside :=
  match place.2 with
  | .escape quote => (place.1, .string quote)
  | .string quote => (place.1, afterInString quote c)
  | .code => if isQuote c then (place.1, .string c) else (place.1 + depthStep c, .code)

/-- No bracket and no string of the text is open at its end. -/
def Balanced (cs : List Char) : Prop := cs.foldl passed (0, .code) = (0, .code)

instance (cs : List Char) : Decidable (Balanced cs) := inferInstanceAs (Decidable (_ = _))

/-- The keyword stands alone nowhere in the text, strings and brackets apart. -/
def FreeOf (keyword : List Char) (cs : List Char) : Prop := keywordFrom keyword none 0 .code cs = none

instance (keyword cs : List Char) : Decidable (FreeOf keyword cs) :=
  inferInstanceAs (Decidable (_ = none))

/-- A word that can be searched for. -/
structure IsKeyword (keyword : List Char) : Prop where
  nonempty : keyword ≠ []
  word : ∀ c ∈ keyword, isNamePart c = true

/-- Each character of a keyword joins a word. -/
theorem IsKeyword.joins {keyword : List Char} (h : IsKeyword keyword) :
    ∀ c ∈ keyword, joinsWord c = true :=
  fun c hc => by simp [joinsWord, h.word c hc]

theorem isKeyword_as : IsKeyword "as".toList :=
  ⟨by decide, List.all_eq_true.mp (by decide)⟩

theorem isKeyword_key : IsKeyword "key".toList :=
  ⟨by decide, List.all_eq_true.mp (by decide)⟩

theorem isKeyword_if : IsKeyword "if".toList :=
  ⟨by decide, List.all_eq_true.mp (by decide)⟩

/-- A character of a name opens and closes nothing. -/
theorem opens_of_isNamePart {c : Char} (h : isNamePart c = true) :
    isQuote c = false ∧ depthStep c = 0 := by
  have hne : ∀ d, isNamePart d = false → c ≠ d := by
    rintro d hd rfl
    simp [h] at hd
  simp [isQuote, depthStep, hne '\'' rfl, hne '"' rfl, hne '\x60' rfl, hne '(' rfl, hne '[' rfl,
    hne '\x7b' rfl, hne ')' rfl, hne ']' rfl, hne '\x7d' rfl]

/-- A piece of text between others: a character that is part of no word, opens nothing and closes
nothing. -/
structure Separates (c : Char) : Prop where
  apart : joinsWord c = false
  quote : isQuote c = false
  level : depthStep c = 0

theorem separates_space : Separates ' ' := ⟨by decide, by decide, by decide⟩

theorem separates_comma : Separates ',' := ⟨by decide, by decide, by decide⟩

section Search

variable {keyword : List Char}

/-- One step of the search. -/
theorem keywordFrom_cons (keyword : List Char) (before : Option Char) (depth : Int) (inside : Inside)
    (c : Char) (rest : List Char) :
    keywordFrom keyword before depth inside (c :: rest) =
      if inside = .code ∧ isQuote c = false ∧ depthStep c = 0 ∧ depth = 0 ∧
          standsAlone keyword before (c :: rest) = true then
        some ([], (c :: rest).drop keyword.length)
      else (keywordFrom keyword (some c) (passed (depth, inside) c).1 (passed (depth, inside) c).2
        rest).map fun p => (c :: p.1, p.2) := by
  cases inside with
  | escape quote => simp [keywordFrom, passed]
  | string quote => simp [keywordFrom, passed]
  | code =>
      by_cases hquote : isQuote c = true
      · simp [keywordFrom, passed, hquote]
      · by_cases hstep : depthStep c = 0
        · by_cases hdepth : depth = 0 <;>
            by_cases halone : standsAlone keyword before (c :: rest) = true <;>
            simp [keywordFrom, passed, hquote, hstep, hdepth, halone]
        · simp [keywordFrom, passed, hquote, hstep]

/-- A keyword that ends before a separator stands alone whatever follows the separator. -/
theorem standsAlone_append (hkeyword : IsKeyword keyword) {s : Char} (hs : joinsWord s = false)
    (before : Option Char) (cs rest : List Char) :
    standsAlone keyword before (cs ++ s :: rest) = standsAlone keyword before cs := by
  have hnot : s ∉ keyword := fun hmem => by simp [hkeyword.joins s hmem] at hs
  have hiff : keyword <+: cs ++ s :: rest ↔ keyword <+: cs := by
    constructor
    · intro h
      have hcut : cs ++ [s] <+: cs ++ s :: rest := ⟨rest, by simp⟩
      rcases List.prefix_or_prefix_of_prefix h hcut with hfront | hfront
      · rcases List.prefix_concat_iff.mp hfront with rfl | hfront
        · simp at hnot
        · exact hfront
      · exact absurd (hfront.subset (by simp)) hnot
    · exact fun h => h.trans (List.prefix_append _ _)
  by_cases hfront : keyword <+: cs
  · have hhead : ((cs ++ s :: rest).drop keyword.length).head?.any joinsWord =
        (cs.drop keyword.length).head?.any joinsWord := by
      rw [List.drop_append_of_le_length hfront.length_le]
      cases cs.drop keyword.length <;> simp [hs]
    simp only [standsAlone, hhead, Bool.and_assoc]
    rw [Bool.eq_iff_iff]
    simp [hiff]
  · have hfirst : keyword.isPrefixOf cs = false := by
      rwa [Bool.eq_false_iff, ne_eq, List.isPrefixOf_iff_prefix]
    have hsecond : keyword.isPrefixOf (cs ++ s :: rest) = false := by
      rwa [Bool.eq_false_iff, ne_eq, List.isPrefixOf_iff_prefix, hiff]
    simp [standsAlone, hfirst, hsecond]

/-- Behind a character that joins no word, the search is as at the start of a text. -/
theorem keywordFrom_before {before : Option Char} (h : before.any joinsWord = false) (depth : Int)
    (inside : Inside) (cs : List Char) :
    keywordFrom keyword before depth inside cs = keywordFrom keyword none depth inside cs := by
  cases cs with
  | nil => rfl
  | cons c rest =>
      have halone : standsAlone keyword before (c :: rest) = standsAlone keyword none (c :: rest) := by
        simp [standsAlone, h]
      rw [keywordFrom_cons, keywordFrom_cons, halone]

/-- Behind a text without the keyword and a separator, the search goes on. -/
theorem keywordFrom_append (hkeyword : IsKeyword keyword) {s : Char} (hs : joinsWord s = false)
    {before : Option Char} {depth : Int} {inside : Inside} {cs : List Char}
    (h : keywordFrom keyword before depth inside cs = none) (rest : List Char) :
    keywordFrom keyword before depth inside (cs ++ s :: rest) =
      (keywordFrom keyword (cs.getLast?.or before) (cs.foldl passed (depth, inside)).1
        (cs.foldl passed (depth, inside)).2 (s :: rest)).map fun p => (cs ++ p.1, p.2) := by
  induction cs generalizing before depth inside with
  | nil => simp
  | cons c tail ih =>
      rw [keywordFrom_cons] at h
      split at h
      · simp at h
      · next hnot =>
          rw [Option.map_eq_none_iff] at h
          have hlast : (c :: tail).getLast?.or before = tail.getLast?.or (some c) := by
            simp [List.getLast?_cons]
          rw [List.cons_append, keywordFrom_cons, ← List.cons_append,
            standsAlone_append hkeyword hs, if_neg hnot, ih h, Option.map_map, hlast]
          rfl

/-- At a separator outside of everything, the search goes on behind it. -/
theorem keywordFrom_separator (hkeyword : IsKeyword keyword) {s : Char} (hs : Separates s)
    (before : Option Char) (rest : List Char) :
    keywordFrom keyword before 0 .code (s :: rest) =
      (keywordFrom keyword none 0 .code rest).map fun p => (s :: p.1, p.2) := by
  have halone : standsAlone keyword before (s :: rest) = false := by
    rw [← List.nil_append (s :: rest), standsAlone_append hkeyword hs.apart]
    cases keyword with
    | nil => exact absurd rfl hkeyword.nonempty
    | cons => simp [standsAlone]
  rw [keywordFrom_cons, if_neg (by simp [halone])]
  simp only [passed, hs.quote, hs.level, Bool.false_eq_true, if_false, Int.add_zero]
  rw [keywordFrom_before (by simp [hs.apart])]

/-- **Search behind a piece.**  Behind a piece that leaves nothing open and does not hold the keyword,
and a separator, the search begins anew. -/
theorem keywordFrom_piece (hkeyword : IsKeyword keyword) {s : Char} (hs : Separates s)
    {before : Option Char} (hbefore : before.any joinsWord = false) {cs : List Char}
    (hbalanced : Balanced cs) (hfree : FreeOf keyword cs) (rest : List Char) :
    keywordFrom keyword before 0 .code (cs ++ s :: rest) =
      (keywordFrom keyword none 0 .code rest).map fun p => (cs ++ s :: p.1, p.2) := by
  have hnone : keywordFrom keyword before 0 .code cs = none := by
    rwa [keywordFrom_before hbefore]
  rw [keywordFrom_append hkeyword hs.apart hnone, hbalanced, keywordFrom_separator hkeyword hs,
    Option.map_map]
  rfl

/-- A keyword at the start of a text is found there. -/
theorem keywordFrom_self (hkeyword : IsKeyword keyword) {rest : List Char}
    (hrest : rest.head?.any joinsWord = false) :
    keywordFrom keyword none 0 .code (keyword ++ rest) = some ([], rest) := by
  match keyword with
  | [] => exact absurd rfl hkeyword.nonempty
  | c :: word =>
      obtain ⟨hquote, hstep⟩ := opens_of_isNamePart (hkeyword.word c (by simp))
      have halone : standsAlone (c :: word) none (c :: word ++ rest) = true := by
        simp [standsAlone, hrest]
      rw [List.cons_append, keywordFrom_cons, if_pos ⟨rfl, hquote, hstep, rfl, halone⟩]
      simp

/-- Inside a word no keyword stands alone. -/
theorem keywordFrom_of_joins {before : Option Char} (hbefore : before.any joinsWord = true)
    {cs : List Char} (h : ∀ c ∈ cs, joinsWord c = true) (depth : Int) (inside : Inside) :
    keywordFrom keyword before depth inside cs = none := by
  induction cs generalizing before depth inside with
  | nil => rfl
  | cons c rest ih =>
      obtain ⟨hc, hrest⟩ := List.forall_mem_cons.mp h
      rw [keywordFrom_cons, if_neg (by simp [standsAlone, hbefore]), ih (by simpa using hc) hrest]
      rfl

/-- A name is free of every keyword but itself. -/
theorem freeOf_name {name : List Char} (hname : ∀ c ∈ name, isNamePart c = true)
    (hne : name ≠ keyword) : FreeOf keyword name := by
  have hjoins : ∀ c ∈ name, joinsWord c = true := fun c hc => by simp [joinsWord, hname c hc]
  unfold FreeOf
  match name with
  | [] => rfl
  | c :: rest =>
      obtain ⟨hc, hrest⟩ := List.forall_mem_cons.mp hjoins
      have halone : standsAlone keyword none (c :: rest) = false := by
        rw [Bool.eq_false_iff]
        intro h
        simp only [standsAlone, Bool.and_eq_true, Bool.not_eq_true'] at h
        obtain ⟨t, ht⟩ := List.isPrefixOf_iff_prefix.mp h.1.1
        -- a longer name goes on behind the keyword with a character that joins it
        cases t with
        | nil => exact hne (by simpa using ht.symm)
        | cons d t =>
            have hd : joinsWord d = true := hjoins d (by simp [← ht])
            have hlast := h.2
            rw [← ht] at hlast
            simp [hd] at hlast
      rw [keywordFrom_cons, if_neg (by simp [halone]), keywordFrom_of_joins (by simpa using hc) hrest]
      rfl

/-- A name opens nothing. -/
theorem balanced_name {name : List Char} (hname : ∀ c ∈ name, isNamePart c = true) :
    Balanced name := by
  unfold Balanced
  induction name with
  | nil => rfl
  | cons c rest ih =>
      obtain ⟨hc, hrest⟩ := List.forall_mem_cons.mp hname
      obtain ⟨hquote, hstep⟩ := opens_of_isNamePart hc
      rw [List.foldl_cons]
      simpa [passed, hquote, hstep] using ih hrest

/-- Balanced texts joined are balanced. -/
theorem Balanced.append {a b : List Char} (ha : Balanced a) (hb : Balanced b) : Balanced (a ++ b) := by
  rw [Balanced, List.foldl_append, ha, hb]

/-- Pieces of text, each behind a space. -/
def spaced (pieces : List (List Char)) : List Char := pieces.flatMap (' ' :: ·)

@[simp] theorem spaced_nil : spaced [] = [] := rfl

/-- The first piece is spaced in front of the others. -/
@[simp] theorem spaced_cons (piece : List Char) (pieces : List (List Char)) :
    spaced (piece :: pieces) = ' ' :: (piece ++ spaced pieces) := by simp [spaced]

/-- Pieces of two lists are spaced one behind another. -/
@[simp] theorem spaced_append (a b : List (List Char)) : spaced (a ++ b) = spaced a ++ spaced b := by
  simp [spaced]

/-- Spaced pieces do not begin with a word. -/
theorem head?_spaced (pieces : List (List Char)) : (spaced pieces).head?.any joinsWord = false := by
  cases pieces with
  | nil => rfl
  | cons => simp [joinsWord, show isNamePart ' ' = false from rfl]

/-- **Search piece by piece.**  Behind pieces that leave nothing open and do not hold the keyword, the
search begins anew. -/
theorem keywordFrom_pieces (hkeyword : IsKeyword keyword) {pieces : List (List Char)}
    (h : ∀ piece ∈ pieces, Balanced piece ∧ FreeOf keyword piece) (before : Option Char)
    (rest : List Char) :
    keywordFrom keyword before 0 .code (spaced pieces ++ ' ' :: rest) =
      (keywordFrom keyword none 0 .code rest).map fun p => (spaced pieces ++ ' ' :: p.1, p.2) := by
  induction pieces generalizing before with
  | nil => exact keywordFrom_separator hkeyword separates_space before rest
  | cons piece pieces ih =>
      obtain ⟨⟨hbalanced, hfree⟩, hmore⟩ := List.forall_mem_cons.mp h
      rw [spaced_cons, List.cons_append, keywordFrom_separator hkeyword separates_space,
        List.append_assoc]
      -- behind the piece stands a space, that of the next piece or the one before the rest
      have hgoes : ∀ more, keywordFrom keyword none 0 .code (piece ++ ' ' :: more) =
          (keywordFrom keyword none 0 .code (' ' :: more)).map fun p => (piece ++ p.1, p.2) := by
        intro more
        rw [keywordFrom_piece hkeyword separates_space rfl hbalanced hfree,
          keywordFrom_separator hkeyword separates_space, Option.map_map]
        rfl
      obtain ⟨more, hspace⟩ : ∃ more, spaced pieces ++ ' ' :: rest = ' ' :: more := by
        cases pieces <;> simp
      rw [hspace, hgoes, ← hspace, ih hmore, Option.map_map, Option.map_map]
      congr 1
      funext p
      simp

/-- The keyword is found behind pieces that do not hold it. -/
theorem breakKeyword_pieces (hkeyword : IsKeyword keyword) {pieces : List (List Char)}
    (h : ∀ piece ∈ pieces, Balanced piece ∧ FreeOf keyword piece) (before : Option Char)
    (behind : List (List Char)) :
    keywordFrom keyword before 0 .code (spaced pieces ++ spaced (keyword :: behind)) =
      some (spaced pieces ++ [' '], spaced behind) := by
  rw [spaced_cons, keywordFrom_pieces hkeyword h, keywordFrom_self hkeyword (head?_spaced behind)]
  rfl

/-- The keyword is not found in pieces that do not hold it. -/
theorem keywordFrom_spaced_eq_none (hkeyword : IsKeyword keyword) {pieces : List (List Char)}
    (h : ∀ piece ∈ pieces, Balanced piece ∧ FreeOf keyword piece) (before : Option Char) :
    keywordFrom keyword before 0 .code (spaced pieces) = none := by
  cases pieces using List.reverseRecOn with
  | nil => rfl
  | append_singleton pieces piece =>
      have hlast := h piece (by simp)
      rw [spaced_append, spaced_cons, spaced_nil, List.append_nil,
        keywordFrom_pieces hkeyword fun p hp => h p (by simp [hp])]
      rw [hlast.2]
      rfl

end Search

end Stencil.Markup
