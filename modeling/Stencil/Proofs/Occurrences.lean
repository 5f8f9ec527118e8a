import Mathlib.Order.Bounds.Basic
import Stencil.Proofs.Keywords

/-!
# Occurrences of a keyword

`Alone` says where a keyword stands alone, of a text as a whole: outside of strings and brackets, as a
scan from the start of the text finds it, and with no character of a word on either side.  A search
finds the first of these places, and a search that begins anew behind one of them finds the next, since
nothing is open there.  Putting `&&` for `as` cuts the text at all of them, and
leaves none behind (`findKeyword?_conjoin`).
-/

namespace Stencil.Markup

open Stencil.Text

/-- The keyword stands alone between `skipped` and `rest` in a text that a scan comes to at `place`,
behind the character `before`. -/
structure Alone (keyword : List Char) (place : Int × Inside) (before : Option Char)
    (cs skipped rest : List Char) : Prop where
  text : cs = skipped ++ keyword ++ rest
  outside : skipped.foldl passed place = (0, .code)
  left : (skipped.getLast?.or before).any joinsWord = false
  right : rest.head?.any joinsWord = false

section Alone

variable {keyword cs skipped rest : List Char} {place : Int × Inside} {before : Option Char}

/-- What has been passed does not matter but for the place it leads to and its last character. -/
theorem alone_append_iff (front : List Char) :
    Alone keyword place before (front ++ cs) (front ++ skipped) rest ↔
      Alone keyword (front.foldl passed place) (front.getLast?.or before) cs skipped rest := by
  have hlast : (front ++ skipped).getLast?.or before =
      skipped.getLast?.or (front.getLast?.or before) := by
    rw [List.getLast?_append, Option.or_assoc]
  constructor
  · intro h
    refine ⟨?_, ?_, ?_, h.right⟩
    · have htext := h.text
      rw [List.append_assoc, List.append_assoc] at htext
      rw [List.append_assoc]
      exact List.append_cancel_left htext
    · rw [← List.foldl_append]
      exact h.outside
    · rw [← hlast]
      exact h.left
  · intro h
    refine ⟨?_, ?_, ?_, h.right⟩
    · rw [h.text, List.append_assoc, List.append_assoc, List.append_assoc]
    · rw [List.foldl_append]
      exact h.outside
    · rw [hlast]
      exact h.left

theorem alone_cons_iff (c : Char) :
    Alone keyword place before (c :: cs) (c :: skipped) rest ↔
      Alone keyword (passed place c) (some c) cs skipped rest :=
  alone_append_iff [c]

/-- A keyword at the start of a text is what the search looks for there. -/
theorem alone_start_iff (hkeyword : IsKeyword keyword) (c : Char) :
    Alone keyword place before (c :: cs) [] rest ↔
      (place.2 = .code ∧ isQuote c = false ∧ depthStep c = 0 ∧ place.1 = 0 ∧
        standsAlone keyword before (c :: cs) = true) ∧ rest = (c :: cs).drop keyword.length := by
  simp only [standsAlone, Bool.and_eq_true, Bool.not_eq_true', List.isPrefixOf_iff_prefix]
  constructor
  · intro h
    have htext : c :: cs = keyword ++ rest := h.text
    have hdrop : (c :: cs).drop keyword.length = rest := by
      rw [htext, List.drop_left]
    have hc : c ∈ keyword := by
      cases hword : keyword with
      | nil => exact absurd hword hkeyword.nonempty
      | cons d word =>
          rw [hword] at htext
          rw [(List.cons.inj htext).1]
          exact List.mem_cons_self
    obtain ⟨hquote, hstep⟩ := opens_of_isNamePart (hkeyword.word c hc)
    have hplace : place = (0, .code) := h.outside
    rw [hplace, hdrop]
    exact ⟨⟨rfl, hquote, hstep, rfl, ⟨⟨rest, htext.symm⟩, h.left⟩, h.right⟩, rfl⟩
  · rintro ⟨⟨hinside, -, -, hdepth, ⟨⟨tail, htail⟩, hleft⟩, hright⟩, rfl⟩
    refine ⟨?_, Prod.ext hdepth hinside, hleft, hright⟩
    rw [← htail, List.drop_left]
    rfl

/-- What stands in front of the keyword is a start of the text. -/
theorem Alone.front (h : Alone keyword place before cs skipped rest) : skipped <+: cs :=
  ⟨keyword ++ rest, by rw [h.text, List.append_assoc]⟩

/-- Two places of a text are in order, and the keyword does not reach from one into the next. -/
theorem Alone.append_prefix (hkeyword : IsKeyword keyword) (h : Alone keyword place before cs skipped rest)
    {skipped' rest' : List Char} (h' : Alone keyword place before cs skipped' rest')
    (hlength : skipped.length < skipped'.length) : skipped ++ keyword <+: skipped' := by
  have hfront : skipped ++ keyword <+: cs := ⟨rest, h.text.symm⟩
  rcases List.prefix_or_prefix_of_prefix hfront h'.front with hle | hle
  · exact hle
  · -- the second place would be inside the keyword, behind one of its characters
    obtain ⟨more, hmore⟩ := hle
    obtain ⟨word, hword⟩ : skipped <+: skipped' :=
      List.prefix_of_prefix_length_le h.front h'.front (Nat.le_of_lt hlength)
    have hsplit : keyword = word ++ more := by
      rw [← hword, List.append_assoc] at hmore
      exact (List.append_cancel_left hmore).symm
    have hne : word ≠ [] := by
      rintro rfl
      rw [List.append_nil] at hword
      rw [hword] at hlength
      exact absurd hlength (Nat.lt_irrefl _)
    have hlast := h'.left
    rw [← hword, List.getLast?_append_of_ne_nil _ hne, List.getLast?_eq_some_getLast hne,
      Option.some_or, Option.any_some] at hlast
    have hmem : word.getLast hne ∈ keyword := by
      rw [hsplit]
      exact List.mem_append_left _ (List.getLast_mem hne)
    rw [hkeyword.joins _ hmem] at hlast
    exact absurd hlast (by decide)

/-- **A new start.**  Behind a place where the keyword stands alone nothing is open, so that a scan
that begins there finds what a scan of the whole text finds. -/
theorem Alone.restart_iff (hkeyword : IsKeyword keyword)
    (h : Alone keyword (0, .code) before cs skipped rest) {skipped' rest' : List Char} :
    Alone keyword (0, .code) before cs (skipped ++ keyword ++ skipped') rest' ↔
      Alone keyword (0, .code) keyword.getLast? rest skipped' rest' := by
  have hplace : (skipped ++ keyword).foldl passed (0, .code) = (0, .code) := by
    rw [List.foldl_append, h.outside]
    exact balanced_name hkeyword.word
  have hlast : (skipped ++ keyword).getLast?.or before = keyword.getLast? := by
    rw [List.getLast?_append_of_ne_nil _ hkeyword.nonempty,
      List.getLast?_eq_some_getLast hkeyword.nonempty, Option.some_or]
  have hiff := @alone_append_iff keyword rest skipped' rest' (0, .code) before (skipped ++ keyword)
  rw [hplace, hlast] at hiff
  rw [h.text]
  exact hiff

/-- What stands alone farther on is found from behind the keyword. -/
theorem Alone.later (hkeyword : IsKeyword keyword)
    (h : Alone keyword (0, .code) before cs skipped rest) {skipped' rest' : List Char}
    (h' : Alone keyword (0, .code) before cs skipped' rest') (hlength : skipped.length < skipped'.length) :
    ∃ more, skipped' = skipped ++ keyword ++ more ∧
      Alone keyword (0, .code) keyword.getLast? rest more rest' := by
  obtain ⟨more, rfl⟩ := h.append_prefix hkeyword h' hlength
  exact ⟨more, rfl, (h.restart_iff hkeyword).mp h'⟩

end Alone

/-! ### The search -/

/-- What a search has to find: the first place where the keyword stands alone, if there is one. -/
def FindsFirst (keyword : List Char) (place : Int × Inside) (before : Option Char) (cs : List Char) :
    Option (List Char × List Char) → Prop
  | none => ∀ skipped rest, ¬ Alone keyword place before cs skipped rest
  | some (first, after) => Alone keyword place before cs first after ∧
      ∀ skipped rest, Alone keyword place before cs skipped rest → first <+: skipped

/-- **The search finds the first place**, wherever it comes from. -/
theorem keywordFrom_findsFirst {keyword : List Char} (hkeyword : IsKeyword keyword)
    (place : Int × Inside) (before : Option Char) (cs : List Char) :
    FindsFirst keyword place before cs (keywordFrom keyword before place.1 place.2 cs) := by
  induction cs generalizing place before with
  | nil =>
      intro skipped rest h
      have htext := h.text
      rw [eq_comm, List.append_eq_nil_iff, List.append_eq_nil_iff] at htext
      exact hkeyword.nonempty htext.1.2
  | cons c tail ih =>
      rw [keywordFrom_cons]
      split
      · next hhere =>
          refine ⟨(alone_start_iff hkeyword c).mpr ⟨hhere, rfl⟩, ?_⟩
          intro skipped rest _
          exact List.nil_prefix
      · next hnot =>
          -- every place is behind the first character
          have hbehind : ∀ skipped rest, Alone keyword place before (c :: tail) skipped rest →
              ∃ more, skipped = c :: more ∧ Alone keyword (passed place c) (some c) tail more rest := by
            intro skipped rest h
            cases skipped with
            | nil => exact absurd ((alone_start_iff hkeyword c).mp h).1 hnot
            | cons d more =>
                have hd : c = d := (List.cons.inj h.text).1
                subst hd
                exact ⟨more, rfl, (alone_cons_iff c).mp h⟩
          have hrest := ih (passed place c) (some c)
          cases hfound : keywordFrom keyword (some c) (passed place c).1 (passed place c).2 tail with
          | none =>
              rw [hfound] at hrest
              intro skipped rest h
              obtain ⟨more, -, hmore⟩ := hbehind skipped rest h
              exact hrest more rest hmore
          | some found =>
              rw [hfound] at hrest
              obtain ⟨hfirst, hleast⟩ := hrest
              refine ⟨(alone_cons_iff c).mpr hfirst, ?_⟩
              intro skipped rest h
              obtain ⟨more, rfl, hmore⟩ := hbehind skipped rest h
              exact List.cons_prefix_cons.mpr ⟨rfl, hleast more rest hmore⟩

/-- The keyword is not found exactly if it stands alone nowhere. -/
theorem keywordFrom_eq_none_iff {keyword : List Char} (hkeyword : IsKeyword keyword)
    (before : Option Char) (cs : List Char) :
    keywordFrom keyword before 0 .code cs = none ↔
      ∀ skipped rest, ¬ Alone keyword (0, .code) before cs skipped rest := by
  have hfirst := keywordFrom_findsFirst hkeyword (0, .code) before cs
  constructor
  · intro hnone
    rw [hnone] at hfirst
    exact hfirst
  · intro hall
    cases hfound : keywordFrom keyword before 0 .code cs with
    | none => rfl
    | some found =>
        rw [hfound] at hfirst
        exact absurd hfirst.1 (hall found.1 found.2)

/-! ### Offsets -/

/-- The offsets at which the keyword stands alone in the text. -/
def keywordOffsets (keyword text : String) : Set Nat :=
  {n | ∃ skipped rest, Alone keyword.toList (0, .code) none text.toList skipped rest ∧
    byteSize skipped = n}

/-- The least of some offsets, if there is one. -/
def FindsLeast (offsets : Set Nat) : Option Nat → Prop
  | none => offsets = ∅
  | some n => IsLeast offsets n

/-- An offset between two characters leads to what stands behind it. -/
theorem startFrom_append (before : Option Char) (front cs : List Char) :
    startFrom before (byteSize front) (front ++ cs) = (front.getLast?.or before, cs) := by
  induction front generalizing before with
  | nil => cases cs <;> rfl
  | cons c more ih =>
      have hpos : byteSize (c :: more) ≠ 0 := Nat.pos_iff_ne_zero.mp (byteSize_pos (List.cons_ne_nil c more))
      rw [List.cons_append, startFrom, if_neg hpos, byteSize_cons, Nat.add_sub_cancel_left, ih,
        List.getLast?_cons]
      cases more.getLast? <;> rfl

/-- A search that starts at an offset. -/
theorem findKeyword?_append {text : String} {front cs : List Char} (htext : text.toList = front ++ cs)
    (keyword : String) :
    findKeyword? text keyword (byteSize front) =
      (keywordFrom keyword.toList front.getLast? 0 .code cs).map fun p =>
        byteSize (front ++ p.1) := by
  have hstart : startFrom none (byteSize front) (front ++ cs) = (front.getLast?, cs) := by
    rw [startFrom_append, Option.or_none]
  simp only [findKeyword?, htext, hstart, breakKeyword, byteSize_append, Nat.add_sub_cancel]

/-- **Searching by offsets.**  A search from the start of a text finds the least offset at which the
keyword stands alone.  A search from just behind such an offset finds the next one. -/
theorem findKeyword?_finds {keyword : String} (hkeyword : IsKeyword keyword.toList) (text : String) :
    FindsLeast (keywordOffsets keyword text) (findKeyword? text keyword 0) ∧
      ∀ n ∈ keywordOffsets keyword text,
        FindsLeast {m ∈ keywordOffsets keyword text | n < m}
          (findKeyword? text keyword (n + byteSize keyword.toList)) := by
  constructor
  · have hsearch := @findKeyword?_append text [] text.toList rfl keyword
    have hfirst := keywordFrom_findsFirst hkeyword (0, .code) none text.toList
    rw [byteSize_nil, List.getLast?_nil] at hsearch
    rw [hsearch]
    cases hfound : keywordFrom keyword.toList none 0 .code text.toList with
    | none =>
        rw [hfound] at hfirst
        refine Set.eq_empty_of_forall_notMem ?_
        rintro n ⟨skipped, rest, halone, -⟩
        exact hfirst skipped rest halone
    | some found =>
        rw [hfound] at hfirst
        refine ⟨⟨found.1, found.2, hfirst.1, rfl⟩, ?_⟩
        rintro n ⟨skipped, rest, halone, rfl⟩
        exact byteSize_mono (hfirst.2 skipped rest halone)
  · rintro n ⟨skipped, rest, halone, rfl⟩
    have hsearch := findKeyword?_append halone.text keyword
    have hfirst := keywordFrom_findsFirst hkeyword (0, .code) keyword.toList.getLast? rest
    have hlast : (skipped ++ keyword.toList).getLast? = keyword.toList.getLast? :=
      List.getLast?_append_of_ne_nil _ hkeyword.nonempty
    -- every later place is one of what stands behind the keyword
    have hlater : ∀ skipped' rest', Alone keyword.toList (0, .code) none text.toList skipped' rest' →
        byteSize skipped < byteSize skipped' →
        ∃ more, skipped' = skipped ++ keyword.toList ++ more ∧
          Alone keyword.toList (0, .code) keyword.toList.getLast? rest more rest' := by
      intro skipped' rest' halone' hsize
      have hlength : skipped.length < skipped'.length := by
        by_contra hle
        have hprefix : skipped' <+: skipped :=
          List.prefix_of_prefix_length_le halone'.front halone.front (Nat.le_of_not_lt hle)
        exact absurd (byteSize_mono hprefix) (Nat.not_le.mpr hsize)
      exact halone.later hkeyword halone' hlength
    rw [byteSize_append, hlast] at hsearch
    rw [hsearch]
    cases hfound : keywordFrom keyword.toList keyword.toList.getLast? 0 .code rest with
    | none =>
        rw [hfound] at hfirst
        refine Set.eq_empty_of_forall_notMem ?_
        rintro m ⟨⟨skipped', rest', halone', rfl⟩, hsize⟩
        obtain ⟨more, -, hmore⟩ := hlater skipped' rest' halone' hsize
        exact hfirst more rest' hmore
    | some found =>
        rw [hfound] at hfirst
        refine ⟨⟨⟨_, found.2, (halone.restart_iff hkeyword).mpr hfirst.1, rfl⟩, ?_⟩, ?_⟩
        · have hpos := byteSize_pos hkeyword.nonempty
          simp only [byteSize_append]
          omega
        · rintro m ⟨⟨skipped', rest', halone', rfl⟩, hsize⟩
          obtain ⟨more, rfl, hmore⟩ := hlater skipped' rest' halone' hsize
          exact byteSize_mono ((List.prefix_append_right_inj _).mpr (hfirst.2 more rest' hmore))

/-! ### Replacing a keyword -/

/-- A text that is put together of pieces is cut between two of them. -/
def CutBetween (separator : List Char) (pieces : List (List Char)) (front back : List Char) : Prop :=
  ∃ ps qs, pieces = ps ++ qs ∧ ps ≠ [] ∧ qs ≠ [] ∧ front = separator.intercalate ps ∧
    back = separator.intercalate qs

section Cut

variable {separator front back piece : List Char} {pieces : List (List Char)}

theorem intercalate_cons (hpieces : pieces ≠ []) :
    separator.intercalate (piece :: pieces) = piece ++ separator ++ separator.intercalate pieces := by
  obtain ⟨next, more, rfl⟩ := List.exists_cons_of_ne_nil hpieces
  rw [List.intercalate_cons_cons]

/-- One piece is cut nowhere. -/
theorem not_cutBetween_singleton : ¬ CutBetween separator [piece] front back := by
  rintro ⟨ps, qs, hpieces, hps, hqs, -, -⟩
  have hlength := congrArg List.length hpieces
  have hfront := List.length_pos_iff.mpr hps
  have hback := List.length_pos_iff.mpr hqs
  rw [List.length_append, List.length_singleton] at hlength
  omega

/-- More pieces are cut behind the first of them or farther on. -/
theorem cutBetween_cons_iff (hpieces : pieces ≠ []) :
    CutBetween separator (piece :: pieces) front back ↔
      (front = piece ∧ back = separator.intercalate pieces) ∨
        ∃ more, front = piece ++ separator ++ more ∧ CutBetween separator pieces more back := by
  constructor
  · rintro ⟨ps, qs, hsplit, hps, hqs, rfl, rfl⟩
    obtain ⟨p, ps, rfl⟩ := List.exists_cons_of_ne_nil hps
    obtain ⟨rfl, rfl⟩ := List.cons.inj hsplit
    by_cases hmore : ps = []
    · subst hmore
      exact .inl ⟨List.intercalate_singleton, rfl⟩
    · exact .inr ⟨_, intercalate_cons hmore, ps, qs, rfl, hmore, hqs, rfl, rfl⟩
  · rintro (⟨rfl, rfl⟩ | ⟨more, rfl, ps, qs, rfl, hps, hqs, rfl, rfl⟩)
    · exact ⟨[front], pieces, rfl, List.cons_ne_nil _ _, hpieces, List.intercalate_singleton.symm, rfl⟩
    · exact ⟨piece :: ps, qs, rfl, List.cons_ne_nil _ _, hqs, (intercalate_cons hps).symm, rfl⟩

end Cut

section Conjoin

variable {before : Option Char} {cs skipped rest : List Char}

theorem conjoinFrom_of_none (h : keywordFrom "as".toList before 0 .code cs = none) :
    conjoinFrom before cs = cs := by
  rw [conjoinFrom]
  split
  · rfl
  · next heq => exact absurd (h.symm.trans heq) (by simp)

theorem conjoinFrom_of_some (h : keywordFrom "as".toList before 0 .code cs = some (skipped, rest)) :
    conjoinFrom before cs = skipped ++ "&&".toList ++ conjoinFrom (some 's') rest := by
  rw [conjoinFrom]
  split
  · next heq => exact absurd (h.symm.trans heq) (by simp)
  · next heq =>
      obtain ⟨rfl, rfl⟩ := Prod.mk.inj (Option.some.inj (h.symm.trans heq))
      simp

/-- **Every place and no other.**  The text is put together of pieces with `as` between them, and the
result of the same pieces with `&&` between them; the places between the pieces are those where `as`
stands alone. -/
theorem exists_pieces_conjoinFrom (before : Option Char) (cs : List Char) :
    ∃ pieces ≠ [], cs = "as".toList.intercalate pieces ∧
      conjoinFrom before cs = "&&".toList.intercalate pieces ∧
      ∀ skipped rest, Alone "as".toList (0, .code) before cs skipped rest ↔
        CutBetween "as".toList pieces skipped rest := by
  induction before, cs using conjoinFrom.induct with
  | case1 before cs hnone =>
      refine ⟨[cs], List.cons_ne_nil _ _, List.intercalate_singleton.symm, ?_, ?_⟩
      · rw [conjoinFrom_of_none hnone, List.intercalate_singleton]
      · intro skipped rest
        have hfree := (keywordFrom_eq_none_iff isKeyword_as before cs).mp hnone skipped rest
        exact iff_of_false hfree not_cutBetween_singleton
  | case2 before cs skipped rest hsome hshorter ih =>
      obtain ⟨pieces, hne, htext, hresult, hplaces⟩ := ih
      have hfirst := keywordFrom_findsFirst isKeyword_as (0, .code) before cs
      rw [show keywordFrom "as".toList before 0 .code cs = some (skipped, rest) from hsome] at hfirst
      obtain ⟨halone, hleast⟩ := hfirst
      refine ⟨skipped :: pieces, List.cons_ne_nil _ _, ?_, ?_, ?_⟩
      · rw [intercalate_cons hne, ← htext]
        exact halone.text
      · rw [conjoinFrom_of_some hsome, hresult, intercalate_cons hne]
      · intro front back
        rw [cutBetween_cons_iff hne, ← htext]
        constructor
        · intro h
          by_cases hlength : skipped.length < front.length
          · obtain ⟨more, hmore, hlater⟩ := halone.later isKeyword_as h hlength
            exact .inr ⟨more, hmore, (hplaces more back).mp hlater⟩
          · have hsame : skipped = front :=
              (hleast front back h).eq_of_length_le (Nat.le_of_not_lt hlength)
            subst hsame
            exact .inl ⟨rfl, List.append_cancel_left (h.text.symm.trans halone.text)⟩
        · rintro (⟨rfl, rfl⟩ | ⟨more, rfl, hcut⟩)
          · exact halone
          · exact (halone.restart_iff isKeyword_as).mpr ((hplaces more back).mpr hcut)

/-- Where no word begins, it does not matter what stands in front. -/
theorem keywordFrom_of_head {keyword : List Char} (hkeyword : IsKeyword keyword)
    (h : cs.head?.any joinsWord = false) (depth : Int) (inside : Inside) :
    keywordFrom keyword before depth inside cs = keywordFrom keyword none depth inside cs := by
  cases cs with
  | nil => rfl
  | cons c tail =>
      have halone : ∀ b, standsAlone keyword b (c :: tail) = false := by
        intro b
        have hfront : keyword.isPrefixOf (c :: tail) = false := by
          rw [Bool.eq_false_iff, ne_eq, List.isPrefixOf_iff_prefix]
          rintro ⟨more, hmore⟩
          obtain ⟨d, word, hword⟩ := List.exists_cons_of_ne_nil hkeyword.nonempty
          rw [hword] at hmore
          have hd : joinsWord d = true := hkeyword.joins d (hword ▸ List.mem_cons_self)
          rw [(List.cons.inj hmore).1] at hd
          rw [List.head?_cons, Option.any_some, hd] at h
          exact absurd h (by decide)
        rw [standsAlone, hfront, Bool.false_and, Bool.false_and]
      rw [keywordFrom_cons, keywordFrom_cons, halone, halone]

theorem head?_conjoinFrom (h : cs.head?.any joinsWord = false) (before : Option Char) :
    (conjoinFrom before cs).head?.any joinsWord = false := by
  cases hfound : keywordFrom "as".toList before 0 .code cs with
  | none => rwa [conjoinFrom_of_none hfound]
  | some found =>
      rw [conjoinFrom_of_some hfound]
      rw [keywordFrom_eq hfound] at h
      cases hskipped : found.1 with
      | nil => rfl
      | cons c more =>
          rw [hskipped] at h
          exact h

/-- **Nothing new.**  In the result `as` stands alone nowhere. -/
theorem keywordFrom_conjoinFrom (before : Option Char) (cs : List Char) :
    keywordFrom "as".toList before 0 .code (conjoinFrom before cs) = none := by
  induction before, cs using conjoinFrom.induct with
  | case1 before cs hnone =>
      rw [conjoinFrom_of_none hnone]
      exact hnone
  | case2 before cs skipped rest hsome hshorter ih =>
      have hfirst := keywordFrom_findsFirst isKeyword_as (0, .code) before cs
      rw [show keywordFrom "as".toList before 0 .code cs = some (skipped, rest) from hsome] at hfirst
      obtain ⟨halone, hleast⟩ := hfirst
      -- in front of the first place there is none, even if the text ends there
      have hfront : keywordFrom "as".toList before 0 .code skipped = none := by
        rw [keywordFrom_eq_none_iff isKeyword_as]
        intro front back h
        cases back with
        | nil =>
            have hlast := halone.left
            rw [h.text] at hlast
            simp [joinsWord, isNamePart, isNameStart, isLetter] at hlast
        | cons c more =>
            have hearlier : Alone "as".toList (0, .code) before cs front
                (c :: more ++ "as".toList ++ rest) :=
              ⟨by rw [halone.text, h.text]; simp, h.outside, h.left, h.right⟩
            have hlength := (hleast _ _ hearlier).length_le
            rw [h.text, List.length_append, List.length_append, List.length_cons] at hlength
            omega
      have hrest : keywordFrom "as".toList none 0 .code (conjoinFrom (some 's') rest) = none := by
        rw [← keywordFrom_of_head isKeyword_as (head?_conjoinFrom halone.right _)]
        exact ih
      have hseparates : Separates '&' := ⟨by decide, by decide, by decide⟩
      rw [conjoinFrom_of_some hsome, List.append_assoc]
      show keywordFrom _ before 0 .code (skipped ++ '&' :: '&' :: conjoinFrom (some 's') rest) = none
      rw [keywordFrom_append isKeyword_as hseparates.apart hfront, halone.outside,
        keywordFrom_separator isKeyword_as hseparates, keywordFrom_separator isKeyword_as hseparates,
        hrest]
      rfl

end Conjoin

/-- **Keywords are found and replaced where they stand alone.**  A search for a keyword from the start
of a text finds the least offset at which it stands alone, and a search from just behind such an offset
finds the next one.  Putting `&&` for `as` keeps the text but for the places where `as` stands alone,
all of which it replaces; so none is left in the result, which stays as it is if `&&` is put for `as`
again. -/
theorem findKeyword?_conjoin (text : String) :
    (∀ keyword : String, IsKeyword keyword.toList →
      FindsLeast (keywordOffsets keyword text) (findKeyword? text keyword 0) ∧
        ∀ n ∈ keywordOffsets keyword text,
          FindsLeast {m ∈ keywordOffsets keyword text | n < m}
            (findKeyword? text keyword (n + byteSize keyword.toList))) ∧
      (∃ pieces, text.toList = "as".toList.intercalate pieces ∧
        (conjoin text).toList = "&&".toList.intercalate pieces ∧
        ∀ skipped rest, Alone "as".toList (0, .code) none text.toList skipped rest ↔
          CutBetween "as".toList pieces skipped rest) ∧
      keywordOffsets "as" (conjoin text) = ∅ ∧ findKeyword? (conjoin text) "as" 0 = none ∧
      conjoin (conjoin text) = conjoin text := by
  have hresult : (conjoin text).toList = conjoinFrom none text.toList := by
    rw [conjoin, String.toList_ofList]
  have hnone : keywordFrom "as".toList none 0 .code (conjoin text).toList = none := by
    rw [hresult]
    exact keywordFrom_conjoinFrom none text.toList
  refine ⟨fun keyword hkeyword => findKeyword?_finds hkeyword text, ?_, ?_, ?_, ?_⟩
  · obtain ⟨pieces, -, htext, hconjoin, hplaces⟩ := exists_pieces_conjoinFrom none text.toList
    exact ⟨pieces, htext, hresult.trans hconjoin, hplaces⟩
  · refine Set.eq_empty_of_forall_notMem ?_
    rintro n ⟨skipped, rest, halone, -⟩
    exact (keywordFrom_eq_none_iff isKeyword_as none _).mp hnone skipped rest halone
  · have hsearch := @findKeyword?_append (conjoin text) [] (conjoin text).toList rfl "as"
    rw [byteSize_nil, List.getLast?_nil, hnone] at hsearch
    exact hsearch
  · rw [conjoin, conjoinFrom_of_none hnone, String.ofList_toList]

/-- A bracket that is closed before it is opened, a string with an escaped quote, a wide character and
a word that holds the keyword. -/
theorem findKeyword?_conjoin_twice :
    IsKeyword "as".toList ∧
      IsLeast (keywordOffsets "as" ")(é.as 'as\\' as' as b as c") 18 ∧
      IsLeast {m ∈ keywordOffsets "as" ")(é.as 'as\\' as' as b as c" | 18 < m} 23 ∧
      {m ∈ keywordOffsets "as" ")(é.as 'as\\' as' as b as c" | 23 < m} = ∅ := by
  obtain ⟨hfirst, hnext⟩ :=
    (findKeyword?_conjoin ")(é.as 'as\\' as' as b as c").1 "as" isKeyword_as
  rw [show findKeyword? ")(é.as 'as\\' as' as b as c" "as" 0 = some 18 by decide +kernel] at hfirst
  have hsecond := hnext 18 hfirst.1
  rw [show findKeyword? ")(é.as 'as\\' as' as b as c" "as" (18 + byteSize "as".toList) = some 23 by
    decide +kernel] at hsecond
  have hlast := hnext 23 hsecond.1.1
  rw [show findKeyword? ")(é.as 'as\\' as' as b as c" "as" (23 + byteSize "as".toList) = none by
    decide +kernel] at hlast
  exact ⟨isKeyword_as, hfirst, hsecond, hlast⟩

end Stencil.Markup
