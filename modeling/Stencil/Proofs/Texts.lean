import Mathlib.Data.List.DropRight
import Mathlib.Data.List.Infix
import Stencil.Text.Search
import Stencil.Text.Trim

/-!
# Trimming and searching

What trimming takes from the ends of a text, when it takes nothing (`trimList_eq_self_iff`), where a
search stops (`exists_breakOn`), and the pieces between separators.
-/

namespace Stencil.Text

/-! ### Trimming -/

/-- Nothing is dropped exactly if the first character stays. -/
theorem dropWhile_eq_self_iff_head? {p : Char → Bool} {cs : List Char} :
    cs.dropWhile p = cs ↔ ∀ c ∈ cs.head?, p c = false := by
  cases cs with
  | nil => simp
  | cons c rest =>
      cases hc : p c with
      | false => simp [hc]
      | true =>
          have hlength := (rest.dropWhile_suffix p).length_le
          simp only [List.dropWhile_cons_of_pos hc, List.head?_cons, Option.mem_some_iff]
          constructor
          · intro heq
            rw [heq, List.length_cons] at hlength
            omega
          · rintro hall
            simpa [hc] using hall c rfl

/-- Nothing is trimmed at the end exactly if the last character is no space. -/
theorem trimEndList_eq_self_iff {cs : List Char} :
    trimEndList cs = cs ↔ ∀ c ∈ cs.getLast?, isSpace c = false := by
  rw [trimEndList, List.reverse_eq_iff, dropWhile_eq_self_iff_head?, List.head?_reverse]

/-- A text is trimmed exactly if no white space is at its two ends. -/
theorem trimList_eq_self_iff {cs : List Char} : trimList cs = cs ↔
    (∀ c ∈ cs.head?, isSpace c = false) ∧ ∀ c ∈ cs.getLast?, isSpace c = false := by
  have hstart : trimStartList cs = cs ↔ ∀ c ∈ cs.head?, isSpace c = false :=
    dropWhile_eq_self_iff_head?
  rw [← hstart, ← trimEndList_eq_self_iff, trimList]
  constructor
  · intro h
    -- trimming only takes away, so what is left of the text is all of it at either stage
    have hfirst : (trimStartList cs).length ≤ cs.length := (cs.dropWhile_suffix isSpace).length_le
    have hsecond : (trimEndList (trimStartList cs)).length ≤ (trimStartList cs).length := by
      simpa [trimEndList] using
        ((trimStartList cs).reverse.dropWhile_suffix isSpace).length_le
    rw [h] at hsecond
    have hself : trimStartList cs = cs :=
      (cs.dropWhile_suffix isSpace).eq_of_length (Nat.le_antisymm hfirst hsecond)
    exact ⟨hself, by rwa [hself] at h⟩
  · rintro ⟨hself, htail⟩
    rw [hself, htail]

/-- The characters of a trimmed text are trimmed. -/
theorem trimList_toList {text : String} (h : trim text = text) :
    trimList text.toList = text.toList := by
  have htoList := congrArg String.toList h
  rwa [trim, String.toList_ofList] at htoList

/-- Characters without a space are trimmed. -/
theorem trimList_of_forall {cs : List Char} (h : ∀ c ∈ cs, isSpace c = false) : trimList cs = cs :=
  trimList_eq_self_iff.mpr
    ⟨fun c hc => h c (List.mem_of_head? hc), fun c hc => h c (List.mem_of_getLast? hc)⟩

/-- Trimming at the end goes no further than a character that is no space. -/
theorem trimEndList_append {a b : List Char} (ha : ∃ c ∈ a.getLast?, isSpace c = false) :
    trimEndList (a ++ b) = a ++ trimEndList b := by
  obtain ⟨c, hc, hspace⟩ := ha
  obtain ⟨front, rfl⟩ := List.getLast?_eq_some_iff.mp hc
  simp only [trimEndList, List.reverse_append, List.dropWhile_append, List.reverse_singleton,
    List.singleton_append, List.dropWhile_cons, hspace]
  split <;> simp_all

/-- What is trimmed at the end is spaces. -/
theorem trimEndList_append_spaces (cs : List Char) :
    ∃ back, cs = trimEndList cs ++ back ∧ ∀ c ∈ back, isSpace c = true := by
  refine ⟨(cs.reverse.takeWhile isSpace).reverse, ?_,
    fun c hc => List.mem_takeWhile_imp (List.mem_reverse.mp hc)⟩
  rw [trimEndList, ← List.reverse_append, List.takeWhile_append_dropWhile, List.reverse_reverse]

/-- A space in front does not matter to trimming. -/
theorem trimList_cons_space (cs : List Char) : trimList (' ' :: cs) = trimList cs := rfl

/-- A space behind does not matter to trimming the end. -/
theorem trimEndList_concat_space (cs : List Char) : trimEndList (cs ++ [' ']) = trimEndList cs := by
  have hspace : isSpace ' ' = true := rfl
  simp [trimEndList, hspace]

/-- A space behind does not matter to trimming. -/
theorem trimList_concat_space (cs : List Char) : trimList (cs ++ [' ']) = trimList cs := by
  simp only [trimList, trimStartList, List.dropWhile_append]
  split
  · next h => rw [List.isEmpty_iff.mp h]; rfl
  · exact trimEndList_concat_space _

/-- What is left of a text has no spaces at its ends, so nothing more is taken away. -/
theorem trimList_trimList (cs : List Char) : trimList (trimList cs) = trimList cs := by
  have hstart : ∀ xs : List Char, trimStartList (trimStartList xs) = trimStartList xs :=
    fun _ => List.dropWhile_idempotent _ _
  have hend : ∀ xs : List Char, trimEndList (trimEndList xs) = trimEndList xs := fun xs => by
    simp [trimEndList, List.dropWhile_idempotent]
  have hboth : trimStartList (trimEndList (trimStartList cs)) = trimEndList (trimStartList cs) := by
    cases hcs : trimStartList cs with
    | nil => rfl
    | cons c rest =>
        have hc : isSpace c = false := by
          have := List.head?_dropWhile_not isSpace cs
          rw [show cs.dropWhile isSpace = c :: rest from hcs] at this
          simpa using this
        obtain ⟨tail, htail⟩ : ∃ tail, trimEndList (c :: rest) = c :: tail :=
          ⟨trimEndList rest, trimEndList_append (a := [c]) ⟨c, by simp, hc⟩⟩
        rw [htail]
        simp [trimStartList, hc]
  rw [trimList, trimList, hboth, hend]

/-- Trimmed characters are among the ones given, in order. -/
theorem trimList_sublist (cs : List Char) : (trimList cs).Sublist cs := by
  have hend := (List.dropWhile_sublist isSpace (l := (trimStartList cs).reverse)).reverse
  rw [List.reverse_reverse] at hend
  exact hend.trans (List.dropWhile_sublist isSpace)

/-- A character left by trimming was there. -/
theorem mem_of_mem_trimList {cs : List Char} {c : Char} (h : c ∈ trimList cs) : c ∈ cs :=
  (trimList_sublist cs).subset h

/-- Only white space is taken away. -/
theorem mem_trimList {cs : List Char} {c : Char} (h : c ∈ cs) (hspace : isSpace c = false) :
    c ∈ trimList cs := by
  have hkept : ∀ {xs : List Char}, c ∈ xs → c ∈ xs.dropWhile isSpace := by
    intro xs hxs
    rw [← xs.takeWhile_append_dropWhile (p := isSpace)] at hxs
    rcases List.mem_append.mp hxs with hfront | hback
    · rw [List.mem_takeWhile_imp hfront] at hspace
      simp at hspace
    · exact hback
  rw [trimList, trimEndList, List.mem_reverse]
  exact hkept (List.mem_reverse.mpr (hkept h))

/-- A part at the end of a trimmed text has no white space behind it. -/
theorem trimEndList_of_suffix {cs text : List Char} (h : trimList text = text) (hcs : cs <:+ text) :
    trimEndList cs = cs := by
  obtain ⟨before, rfl⟩ := hcs
  rw [trimEndList_eq_self_iff]
  intro c hc
  have hne : cs ≠ [] := by
    rintro rfl
    simp at hc
  refine (trimList_eq_self_iff.mp h).2 c ?_
  rwa [List.getLast?_append_of_ne_nil _ hne]

/-! ### Searching -/

/-- A text that stands somewhere is found there or further in front. -/
theorem exists_breakOn (needle before after : List Char) : ∃ front back,
    breakOn needle (before ++ needle ++ after) = some (front, back) ∧ after <:+ back := by
  induction before with
  | nil =>
      refine ⟨[], after, ?_, List.suffix_rfl⟩
      rw [List.nil_append]
      cases htext : needle ++ after with
      | nil =>
          obtain ⟨rfl, rfl⟩ := List.append_eq_nil_iff.mp htext
          rfl
      | cons c rest =>
          have hprefix : needle.isPrefixOf (c :: rest) = true := by
            rw [List.isPrefixOf_iff_prefix, ← htext]
            exact List.prefix_append _ _
          rw [breakOn, if_pos hprefix, ← htext, List.drop_left]
  | cons c before ih =>
      rw [List.cons_append, List.cons_append, breakOn]
      by_cases hprefix : needle.isPrefixOf (c :: (before ++ needle ++ after)) = true
      · rw [if_pos hprefix]
        refine ⟨[], _, rfl, ?_⟩
        rw [← List.cons_append, List.drop_append_of_le_length (by simp; omega)]
        exact List.suffix_append _ _
      · rw [if_neg hprefix]
        obtain ⟨front, back, hbreak, hback⟩ := ih
        rw [hbreak]
        exact ⟨c :: front, back, rfl, hback⟩

/-! ### Splitting -/

section Split

variable {separator : Char} {cs : List Char}

/-- A split gives one piece at least. -/
theorem splitAt_ne_nil (separator : Char) (cs : List Char) : splitAt separator cs ≠ [] := by
  cases cs with
  | nil => simp [splitAt]
  | cons c rest =>
      rw [splitAt]
      split
      · simp
      · split <;> simp

/-- The pieces on both sides of a separator do not depend on each other. -/
theorem splitAt_append (separator : Char) (cs rest : List Char) :
    splitAt separator (cs ++ separator :: rest) = splitAt separator cs ++ splitAt separator rest := by
  induction cs with
  | nil =>
      obtain ⟨piece, pieces, hrest⟩ := List.exists_cons_of_ne_nil (splitAt_ne_nil separator rest)
      simp [splitAt, hrest]
  | cons c more ih =>
      obtain ⟨piece, pieces, hmore⟩ := List.exists_cons_of_ne_nil (splitAt_ne_nil separator more)
      rw [List.cons_append, splitAt, ih, splitAt, hmore, List.cons_append]
      by_cases hc : (c == separator) = true
      · simp only [if_pos hc, List.cons_append]
      · simp only [if_neg hc, List.cons_append]

/-- What has no separator is one piece. -/
theorem splitAt_of_notMem (h : separator ∉ cs) : splitAt separator cs = [cs] := by
  induction cs with
  | nil => rfl
  | cons c rest ih =>
      obtain ⟨hc, hrest⟩ := not_or.mp (mt List.mem_cons.mpr h)
      have hne : (c == separator) = false := beq_eq_false_iff_ne.mpr (Ne.symm hc)
      rw [splitAt, ih hrest]
      simp [hne]

/-- No piece holds the separator. -/
theorem notMem_of_mem_splitAt {piece : List Char} (h : piece ∈ splitAt separator cs) :
    separator ∉ piece := by
  induction cs generalizing piece with
  | nil =>
      obtain rfl := List.mem_singleton.mp h
      simp
  | cons c rest ih =>
      obtain ⟨first, pieces, hrest⟩ := List.exists_cons_of_ne_nil (splitAt_ne_nil separator rest)
      rw [hrest] at ih
      rw [splitAt, hrest] at h
      by_cases hc : (c == separator) = true
      · rcases List.mem_cons.mp (by simpa only [if_pos hc] using h) with rfl | h
        · simp
        · exact ih h
      · rcases List.mem_cons.mp (by simpa only [if_neg hc] using h) with rfl | h
        · rw [List.mem_cons, not_or]
          exact ⟨fun heq => hc (beq_iff_eq.mpr heq.symm), ih List.mem_cons_self⟩
        · exact ih (List.mem_cons_of_mem _ h)

/-- Only separators are lost. -/
theorem flatten_splitAt_sublist (separator : Char) (cs : List Char) :
    (splitAt separator cs).flatten.Sublist cs := by
  induction cs with
  | nil => simp [splitAt]
  | cons c rest ih =>
      obtain ⟨piece, pieces, hrest⟩ := List.exists_cons_of_ne_nil (splitAt_ne_nil separator rest)
      rw [hrest] at ih
      rw [splitAt, hrest]
      by_cases hc : (c == separator) = true
      · simp only [if_pos hc]
        exact ih.cons c
      · simp only [if_neg hc]
        exact ih.cons_cons c

end Split

/-! ### Names -/

/-- A name has a character, and only such that can go on with a name. -/
theorem isNamePart_of_isName {name : String} (h : isName name = true) :
    name.toList ≠ [] ∧ ∀ c ∈ name.toList, isNamePart c = true := by
  unfold isName at h
  cases hname : name.toList with
  | nil => simp [hname, isNameList] at h
  | cons c rest =>
      rw [hname, isNameList, Bool.and_eq_true, List.all_eq_true] at h
      refine ⟨by simp, fun d hd => ?_⟩
      rcases List.mem_cons.mp hd with rfl | hd
      · simp [isNamePart, h.1]
      · exact h.2 d hd

end Stencil.Text
