import Stencil.Markup.Loop
import Stencil.Proofs.Keywords
import Stencil.Proofs.Readers

/-!
# The clauses of a loop header

A loop header is written as `ITERABLE as ITEM[, INDEX] [key KEY] [if GUARD]` and is divided again at
its keywords.  Each keyword is searched for in all that is left of the header, so a name that is
itself a keyword is taken for one, and so is a `key` in the guard of a loop without a key.  But for
that, the clauses are those that were written (`Loop.parse_header`).
-/

namespace Stencil.Markup

open Stencil.Text
open Stencil.Script (Fault Expression parseName)

/-- The clauses of a loop header as they are written. -/
structure Clauses where
  iterable : String
  item : String
  index : Option String := none
  key : Option String := none
  guard : Option String := none

namespace Clauses

/-- The header, with its clauses joined by single spaces. -/
def header (c : Clauses) : String :=
  c.iterable ++ " as " ++ c.item ++ (c.index.map (", " ++ ·)).getD "" ++
    (c.key.map (" key " ++ ·)).getD "" ++ (c.guard.map (" if " ++ ·)).getD ""

/-- Strings and brackets of all clauses are closed, the names are names, and no clause holds the
keyword that would end or change it. -/
structure WellFormed (c : Clauses) : Prop where
  iterable : Balanced c.iterable.toList ∧ FreeOf "as".toList c.iterable.toList
  item : isName c.item = true
  index : ∀ name ∈ c.index, isName name = true
  key : ∀ text ∈ c.key, Balanced text.toList ∧ FreeOf "if".toList text.toList
  guard : ∀ text ∈ c.guard, Balanced text.toList ∧ FreeOf "as".toList text.toList

/-- A reader accepts the clauses, as the parts of a loop. -/
structure ReadAs (read : String → Except Fault Expression) (c : Clauses) (l : Loop) : Prop where
  iterable : read c.iterable = .ok l.iterable
  item : l.item = c.item
  index : l.index = c.index
  key : readOptional read c.key = .ok l.key
  guard : readOptional read c.guard = .ok l.guard

/-- Nothing in the clauses is taken for the keyword of another one: no name is the keyword that is
searched for behind it, and without a key the guard does not hold its keyword. -/
structure Apart (c : Clauses) : Prop where
  item : c.item ≠ "key"
  index : c.index ≠ some "key"
  unkeyed : c.key = none → c.item ≠ "if" ∧ c.index ≠ some "if" ∧
    ∀ text ∈ c.guard, FreeOf "key".toList text.toList

/-- The names of the header as pieces between spaces. -/
def names (c : Clauses) : List (List Char) :=
  match c.index with
  | none => [c.item.toList]
  | some index => [c.item.toList ++ [','], index.toList]

/-- A clause with its keyword as pieces between spaces, if there is one. -/
def pieces (keyword : List Char) (text : Option String) : List (List Char) :=
  match text with
  | none => []
  | some text => [keyword, text.toList]

theorem toList_header (c : Clauses) : c.header.toList =
    c.iterable.toList ++ spaced ("as".toList :: (c.names ++
      (pieces "key".toList c.key ++ pieces "if".toList c.guard))) := by
  have has : " as ".toList = [' ', 'a', 's', ' '] := rfl
  have hcomma : ", ".toList = [',', ' '] := rfl
  have hkey : " key ".toList = [' ', 'k', 'e', 'y', ' '] := rfl
  have hif : " if ".toList = [' ', 'i', 'f', ' '] := rfl
  obtain ⟨iterable, item, index, key, guard⟩ := c
  cases index <;> cases key <;> cases guard <;>
    simp [header, names, pieces, has, hcomma, hkey, hif]

end Clauses

theorem isSpace_of_isNamePart {c : Char} (h : isNamePart c = true) :
    isSpace c = false ∧ inBinding c = true := by
  have hlow : ∀ a b : Char, a ≤ b ↔ a.toNat ≤ b.toNat := fun _ _ => Iff.rfl
  have hspace : isSpace c = false := by
    rw [Bool.eq_false_iff]
    intro hs
    simp only [isNamePart, isNameStart, isLetter, isDigit, Bool.or_eq_true, Bool.and_eq_true,
      decide_eq_true_eq, beq_iff_eq, hlow] at h
    simp only [isSpace, Bool.or_eq_true, Bool.and_eq_true, decide_eq_true_eq, beq_iff_eq] at hs
    have hcodes : ('_' : Char).toNat = 95 ∧ ('$' : Char).toNat = 36 ∧ ('a' : Char).toNat = 97 ∧
        ('z' : Char).toNat = 122 ∧ ('A' : Char).toNat = 65 ∧ ('Z' : Char).toNat = 90 ∧
        ('0' : Char).toNat = 48 ∧ ('9' : Char).toNat = 57 := by decide
    obtain ⟨h₁, h₂, h₃, h₄, h₅, h₆, h₇, h₈⟩ := hcodes
    rw [h₃, h₄, h₅, h₆, h₇, h₈] at h
    rcases h with (((h | h) | rfl) | rfl) | h
    · omega
    · omega
    · omega
    · omega
    · omega
  refine ⟨hspace, ?_⟩
  have hcomma : c ≠ ',' := by
    rintro rfl
    revert h
    decide
  simp [inBinding, hspace, hcomma]

section Names

variable {name : List Char}

/-- The names of a header are read from the first one on. -/
theorem bindingNames?_append (hne : name ≠ []) (hname : ∀ c ∈ name, isNamePart c = true)
    {rest : List Char} (hrest : ∀ c ∈ rest.head?, inBinding c = false) :
    bindingNames? (' ' :: (name ++ rest)) =
      match trimStartList (trimEndList rest) with
      | [] => some (name, none)
      | ',' :: more =>
          let index := trimStartList more
          if !index.isEmpty && index.all inBinding then some (name, some index) else none
      | _ => none := by
  have hbinding : ∀ c ∈ name, inBinding c = true := fun c hc => (isSpace_of_isNamePart (hname c hc)).2
  have htrim : trimList (' ' :: (name ++ rest)) = name ++ trimEndList rest := by
    have hlast := List.getLast?_eq_some_getLast hne
    rw [trimList_cons_space, trimList, ← trimEndList_append
      ⟨_, hlast, (isSpace_of_isNamePart (hname _ (List.getLast_mem hne))).1⟩]
    obtain ⟨c, tail, rfl⟩ := List.exists_cons_of_ne_nil hne
    simp [trimStartList, (isSpace_of_isNamePart (hname c (by simp))).1]
  have hhead : ∀ c ∈ (trimEndList rest).head?, inBinding c = false := by
    have hcut : trimEndList rest <+: rest := by
      rw [trimEndList, ← List.reverse_suffix, List.reverse_reverse]
      exact List.dropWhile_suffix _
    intro c hc
    obtain ⟨tail, htail⟩ := List.head?_eq_some_iff.mp hc
    rw [htail] at hcut
    obtain ⟨more, rfl⟩ := hcut
    exact hrest c (by simp)
  have htake : (name ++ trimEndList rest).takeWhile inBinding = name := by
    rw [List.takeWhile_append_of_pos hbinding]
    cases hmore : trimEndList rest with
    | nil => simp
    | cons c more => simp [hhead c (by simp [hmore])]
  have hdrop : (name ++ trimEndList rest).dropWhile inBinding = trimEndList rest := by
    rw [List.dropWhile_append_of_pos hbinding]
    cases hmore : trimEndList rest with
    | nil => rfl
    | cons c more => simp [hhead c (by simp [hmore])]
  have hfull : name.isEmpty = false := by simpa using hne
  have hread := bindingNames?.eq_1 (' ' :: (name ++ rest))
  simp only [htrim, htake, hdrop, hfull, Bool.false_eq_true, if_false] at hread
  exact hread

variable {c : Clauses}

theorem Clauses.WellFormed.names_free (h : c.WellFormed) {keyword : String}
    (hkeyword : IsKeyword keyword.toList) (hitem : c.item ≠ keyword) (hindex : c.index ≠ some keyword) :
    ∀ piece ∈ c.names, Balanced piece ∧ FreeOf keyword.toList piece := by
  have hname : ∀ name : String, isName name = true → name ≠ keyword →
      Balanced name.toList ∧ FreeOf keyword.toList name.toList := fun name hname hne =>
    ⟨balanced_name (isNamePart_of_isName hname).2, freeOf_name (isNamePart_of_isName hname).2
      fun heq => hne (String.toList_inj.mp heq)⟩
  obtain ⟨hbalanced, hfree⟩ := hname c.item h.item hitem
  unfold Clauses.names
  cases hc : c.index with
  | none => simpa using ⟨hbalanced, hfree⟩
  | some index =>
      have hsecond := hname index (h.index index hc) (by simpa [hc] using hindex)
      have hfirst : FreeOf keyword.toList (c.item.toList ++ [',']) := by
        unfold FreeOf
        rw [keywordFrom_piece hkeyword separates_comma rfl hbalanced hfree]
        rfl
      simpa using ⟨⟨hbalanced.append (by decide), hfirst⟩, hsecond⟩

/-- The names are read between spaces. -/
theorem Clauses.WellFormed.bindingNames?_names (h : c.WellFormed) {pad : List Char}
    (hpad : pad = [] ∨ pad = [' ']) :
    bindingNames? (spaced c.names ++ pad) = some (c.item.toList, c.index.map String.toList) := by
  obtain ⟨hne, hitem⟩ := isNamePart_of_isName h.item
  have hspaces : trimEndList pad = [] := by rcases hpad with rfl | rfl <;> rfl
  unfold Clauses.names
  cases hc : c.index with
  | none =>
      have hrest : ∀ c ∈ pad.head?, inBinding c = false := by
        rcases hpad with rfl | rfl
        · simp
        · simp only [List.head?_cons, Option.mem_some_iff, forall_eq']
          rfl
      simp only [spaced_cons, spaced_nil, List.append_nil, List.cons_append]
      rw [bindingNames?_append hne hitem hrest, hspaces]
      rfl
  | some index =>
      obtain ⟨hfull, hindex⟩ := isNamePart_of_isName (h.index index hc)
      have hlast := List.getLast?_eq_some_getLast hfull
      have hnospace : ∀ c ∈ index.toList, isSpace c = false :=
        fun c hc => (isSpace_of_isNamePart (hindex c hc)).1
      have htrim : trimEndList (',' :: ' ' :: (index.toList ++ pad)) = ',' :: ' ' :: index.toList := by
        have hend := trimEndList_append (a := ',' :: ' ' :: index.toList) (b := pad)
          ⟨_, by simp [List.getLast?_cons, hlast], hnospace _ (List.getLast_mem hfull)⟩
        rw [hspaces, List.append_nil] at hend
        exact hend
      have hstart : trimStartList (' ' :: index.toList) = index.toList := by
        obtain ⟨d, tail, htail⟩ := List.exists_cons_of_ne_nil hfull
        have hd := hnospace d (by simp [htail])
        rw [htail]
        simp [trimStartList, hd, show isSpace ' ' = true from rfl]
      have hall : index.toList.all inBinding = true :=
        List.all_eq_true.mpr fun c hc => (isSpace_of_isNamePart (hindex c hc)).2
      have hcomma : trimStartList (',' :: ' ' :: index.toList) = ',' :: ' ' :: index.toList := rfl
      simp only [spaced_cons, spaced_nil, List.append_nil, List.cons_append, List.append_assoc,
        List.nil_append]
      rw [bindingNames?_append hne hitem (by simp [inBinding]), htrim, hcomma]
      simp [hstart, hall, hfull]

/-- A name that is cut off at a keyword behind the comma is missing. -/
theorem bindingNames?_comma (hne : name ≠ []) (hname : ∀ c ∈ name, isNamePart c = true) :
    bindingNames? (' ' :: (name ++ [',', ' '])) = none := by
  rw [bindingNames?_append hne hname (by simp [inBinding])]
  rfl

/-- Behind the names there can be no other word. -/
theorem Clauses.WellFormed.bindingNames?_word (h : c.WellFormed) (rest : List Char) :
    bindingNames? (spaced c.names ++ ' ' :: 'i' :: 'f' :: rest) = none := by
  obtain ⟨hne, hitem⟩ := isNamePart_of_isName h.item
  have hword : ∀ front : List Char, trimEndList (front ++ ' ' :: 'i' :: 'f' :: rest) =
      front ++ ' ' :: 'i' :: 'f' :: trimEndList rest := fun front => by
    have hend := trimEndList_append (a := front ++ [' ', 'i', 'f']) (b := rest)
      ⟨'f', by simp, by decide⟩
    simpa using hend
  unfold Clauses.names
  cases hc : c.index with
  | none =>
      simp only [spaced_cons, spaced_nil, List.append_nil, List.cons_append]
      rw [bindingNames?_append hne hitem (by simp [inBinding, show isSpace ' ' = true from rfl]),
        ← List.nil_append (' ' :: 'i' :: 'f' :: rest), hword]
      rfl
  | some index =>
      obtain ⟨hfull, hindex⟩ := isNamePart_of_isName (h.index index hc)
      obtain ⟨d, tail, htail⟩ := List.exists_cons_of_ne_nil hfull
      have hd : isSpace d = false := (isSpace_of_isNamePart (hindex d (by simp [htail]))).1
      simp only [spaced_cons, spaced_nil, List.append_nil, List.cons_append, List.append_assoc,
        List.nil_append]
      rw [bindingNames?_append hne hitem (by simp [inBinding]),
        show ',' :: ' ' :: (index.toList ++ ' ' :: 'i' :: 'f' :: rest) =
          (',' :: ' ' :: index.toList) ++ ' ' :: 'i' :: 'f' :: rest from by simp, hword, htail]
      -- the space before the word stands in what is taken for the second name
      simp [trimStartList, show isSpace ',' = false from rfl, show isSpace ' ' = true from rfl, hd,
        inBinding]

end Names

section Header

variable {c : Clauses}

theorem Clauses.WellFormed.keyword_as (h : c.WellFormed) :
    breakKeyword "as" none c.header.toList = some (c.iterable.toList ++ [' '],
      spaced (c.names ++ (Clauses.pieces "key".toList c.key ++ Clauses.pieces "if".toList c.guard))) := by
  rw [c.toList_header, spaced_cons]
  show keywordFrom "as".toList none 0 .code _ = _
  rw [keywordFrom_piece isKeyword_as separates_space rfl h.iterable.1 h.iterable.2,
    keywordFrom_self isKeyword_as (head?_spaced _)]
  rfl

/-- The first name, if it is the keyword that is searched for, is taken for it. -/
theorem Clauses.keyword_item (keyword : List Char) (hkeyword : IsKeyword keyword)
    (hitem : c.item.toList = keyword) (before : Option Char) (more : List (List Char)) :
    ∃ rest, keywordFrom keyword before 0 .code (spaced (c.names ++ more)) = some ([' '], rest) := by
  obtain ⟨rest, hrest, heq⟩ : ∃ rest, rest.head?.any joinsWord = false ∧
      spaced (c.names ++ more) = ' ' :: (keyword ++ rest) := by
    unfold names
    cases c.index with
    | none => exact ⟨spaced more, head?_spaced more, by simp [hitem]⟩
    | some index =>
        exact ⟨',' :: spaced (index.toList :: more), separates_comma.apart, by simp [hitem]⟩
  rw [heq, keywordFrom_separator hkeyword separates_space, keywordFrom_self hkeyword hrest]
  exact ⟨rest, rfl⟩

/-- The second name, if it is the keyword that is searched for and the first is not, is taken for
it. -/
theorem Clauses.WellFormed.keyword_index (h : c.WellFormed) {keyword : String}
    (hkeyword : IsKeyword keyword.toList) (hitem : c.item ≠ keyword) (hindex : c.index = some keyword)
    (before : Option Char) (more : List (List Char)) :
    ∃ rest, keywordFrom keyword.toList before 0 .code (spaced (c.names ++ more)) =
      some (' ' :: (c.item.toList ++ [',', ' ']), rest) := by
  -- the first name with the comma behind it is free of the keyword
  have hpiece : Balanced (c.item.toList ++ [',']) ∧ FreeOf keyword.toList (c.item.toList ++ [',']) := by
    obtain ⟨-, hname⟩ := isNamePart_of_isName h.item
    refine ⟨(balanced_name hname).append (by decide), ?_⟩
    unfold FreeOf
    rw [keywordFrom_piece hkeyword separates_comma rfl (balanced_name hname)
      (freeOf_name hname fun heq => hitem (String.toList_inj.mp heq))]
    rfl
  have hnames : c.names ++ more = [c.item.toList ++ [',']] ++ keyword.toList :: more := by
    simp [names, hindex]
  rw [hnames, spaced_append, breakKeyword_pieces hkeyword (by simpa using hpiece)]
  exact ⟨spaced more, by simp⟩

/-- Without a key, its keyword is not found in names and a guard that are free of it. -/
theorem Clauses.WellFormed.keyword_key_of_unkeyed (h : c.WellFormed) (hitem : c.item ≠ "key")
    (hindex : c.index ≠ some "key") (hkey : c.key = none)
    (hguard : ∀ text ∈ c.guard, FreeOf "key".toList text.toList) (before : Option Char) :
    breakKeyword "key" before (spaced (c.names ++ (pieces "key".toList c.key ++
      pieces "if".toList c.guard))) = none := by
  refine keywordFrom_spaced_eq_none isKeyword_key (fun piece hpiece => ?_) before
  simp only [hkey, pieces, List.nil_append, List.mem_append] at hpiece
  rcases hpiece with hpiece | hpiece
  · exact h.names_free isKeyword_key hitem hindex piece hpiece
  · cases hg : c.guard with
    | none => simp [hg] at hpiece
    | some text =>
        simp only [hg, List.mem_cons, List.not_mem_nil, or_false] at hpiece
        rcases hpiece with rfl | rfl
        · exact ⟨by decide, by decide⟩
        · exact ⟨(h.guard text hg).1, hguard text hg⟩

/-- Clauses that are apart are divided where they were joined, but for spaces. -/
theorem Clauses.WellFormed.split?_header (h : c.WellFormed) (hapart : c.Apart) :
    ∃ pad, (pad = [] ∨ pad = [' ']) ∧ LoopText.split? c.header.toList =
      some { iterable := c.iterable.toList ++ [' ']
             bindings := spaced c.names ++ pad
             key := c.key.map fun text =>
              ' ' :: (text.toList ++ if c.guard.isSome then [' '] else [])
             guard := c.guard.map fun text => ' ' :: text.toList } := by
  have hnames := h.names_free isKeyword_key hapart.item hapart.index
  simp only [LoopText.split?, h.keyword_as]
  cases hkey : c.key with
  | none =>
      obtain ⟨hitem, hindex, hguard⟩ := hapart.unkeyed hkey
      have hnone := h.keyword_key_of_unkeyed hapart.item hapart.index hkey hguard (some 's')
      have hfree := h.names_free isKeyword_if hitem hindex
      rw [hkey] at hnone
      cases hg : c.guard with
      | none =>
          simp only [hg, pieces, List.append_nil] at hnone ⊢
          have hend : breakKeyword "if" (some 's') (spaced c.names) = none :=
            keywordFrom_spaced_eq_none isKeyword_if hfree (some 's')
          refine ⟨[], .inl rfl, ?_⟩
          simp only [hnone, hend]
          simp
      | some text =>
          simp only [hg, pieces, List.nil_append] at hnone ⊢
          have hif : breakKeyword "if" (some 's') (spaced (c.names ++ ["if".toList, text.toList])) =
              some (spaced c.names ++ [' '], spaced [text.toList]) := by
            rw [spaced_append]
            exact breakKeyword_pieces isKeyword_if hfree (some 's') [text.toList]
          refine ⟨[' '], .inr rfl, ?_⟩
          simp only [hnone, hif]
          simp
  | some key =>
      have hfound : breakKeyword "key" (some 's') (spaced (c.names ++
          (pieces "key".toList (some key) ++ pieces "if".toList c.guard))) =
          some (spaced c.names ++ [' '], spaced (key.toList :: pieces "if".toList c.guard)) := by
        rw [spaced_append]
        exact breakKeyword_pieces isKeyword_key hnames (some 's') _
      have hfree : ∀ piece ∈ [key.toList], Balanced piece ∧ FreeOf "if".toList piece := by
        simpa using h.key key hkey
      refine ⟨[' '], .inr rfl, ?_⟩
      rw [hfound]
      cases hg : c.guard with
      | none =>
          have hend : breakKeyword "if" (some 'y') (spaced [key.toList]) = none :=
            keywordFrom_spaced_eq_none isKeyword_if hfree (some 'y')
          simp only [pieces, hend]
          simp
      | some text =>
          have hif : breakKeyword "if" (some 'y') (spaced [key.toList, "if".toList, text.toList]) =
              some (spaced [key.toList] ++ [' '], spaced [text.toList]) := by
            rw [← List.singleton_append, spaced_append]
            exact breakKeyword_pieces isKeyword_if hfree (some 'y') [text.toList]
          simp only [pieces, hif]
          simp

/-- What stands before a keyword that was found behind the item is taken for the names. -/
theorem split?_of_keyed {header iterable rest bindings keyed : List Char}
    (has : breakKeyword "as" none header = some (iterable, rest))
    (hkey : breakKeyword "key" (some 's') rest = some (bindings, keyed)) :
    ∃ t, LoopText.split? header = some t ∧ t.iterable = iterable ∧ t.bindings = bindings := by
  simp only [LoopText.split?, has, hkey]
  cases breakKeyword "if" (some 'y') keyed <;> exact ⟨_, rfl, rfl, rfl⟩

/-- Clauses that are not apart are divided in front of a name or behind the guard, and there are no
names there. -/
theorem Clauses.WellFormed.split?_of_not_apart (h : c.WellFormed) (hnot : ¬ c.Apart) :
    ∃ t, LoopText.split? c.header.toList = some t ∧ t.iterable = c.iterable.toList ++ [' '] ∧
      bindingNames? t.bindings = none := by
  have hcomma := bindingNames?_comma (isNamePart_of_isName h.item).1 (isNamePart_of_isName h.item).2
  have hblank : bindingNames? [' '] = none := rfl
  by_cases hitem : c.item = "key"
  · obtain ⟨rest, hrest⟩ := c.keyword_item _ isKeyword_key (congrArg String.toList hitem) (some 's')
      (pieces "key".toList c.key ++ pieces "if".toList c.guard)
    obtain ⟨t, ht, hiterable, hbindings⟩ := split?_of_keyed h.keyword_as hrest
    exact ⟨t, ht, hiterable, hbindings ▸ hblank⟩
  by_cases hindex : c.index = some "key"
  · obtain ⟨rest, hrest⟩ := h.keyword_index isKeyword_key hitem hindex (some 's')
      (pieces "key".toList c.key ++ pieces "if".toList c.guard)
    obtain ⟨t, ht, hiterable, hbindings⟩ := split?_of_keyed h.keyword_as hrest
    exact ⟨t, ht, hiterable, hbindings ▸ hcomma⟩
  obtain ⟨hkey, hbad⟩ : c.key = none ∧ ¬ (c.item ≠ "if" ∧ c.index ≠ some "if" ∧
      ∀ text ∈ c.guard, FreeOf "key".toList text.toList) := by
    by_contra hall
    exact hnot ⟨hitem, hindex, fun hkey => by_contra fun hbad => hall ⟨hkey, hbad⟩⟩
  by_cases hguard : ∀ text ∈ c.guard, FreeOf "key".toList text.toList
  · have hnone := h.keyword_key_of_unkeyed hitem hindex hkey hguard (some 's')
    have hsplit : ∀ bindings rest, breakKeyword "if" (some 's') (spaced (c.names ++
        (pieces "key".toList c.key ++ pieces "if".toList c.guard))) = some (bindings, rest) →
        LoopText.split? c.header.toList =
          some ⟨c.iterable.toList ++ [' '], bindings, none, some rest⟩ := by
      intro bindings rest hif
      simp only [LoopText.split?, h.keyword_as, hnone, hif]
    by_cases hfirst : c.item = "if"
    · obtain ⟨rest, hrest⟩ := c.keyword_item _ isKeyword_if (congrArg String.toList hfirst) (some 's')
        (pieces "key".toList c.key ++ pieces "if".toList c.guard)
      exact ⟨_, hsplit _ _ hrest, rfl, hblank⟩
    · have hsecond : c.index = some "if" := by
        by_contra hne
        exact hbad ⟨hfirst, hne, hguard⟩
      obtain ⟨rest, hrest⟩ := h.keyword_index isKeyword_if hfirst hsecond (some 's')
        (pieces "key".toList c.key ++ pieces "if".toList c.guard)
      exact ⟨_, hsplit _ _ hrest, rfl, hcomma⟩
  · push Not at hguard
    obtain ⟨text, hg, hheld⟩ := hguard
    obtain ⟨⟨front, back⟩, hcut⟩ := Option.ne_none_iff_exists'.mp hheld
    have hpieces : ∀ piece ∈ c.names ++ ["if".toList], Balanced piece ∧ FreeOf "key".toList piece := by
      intro piece hpiece
      rcases List.mem_append.mp hpiece with hpiece | hpiece
      · exact h.names_free isKeyword_key hitem hindex piece hpiece
      · obtain rfl := List.mem_singleton.mp hpiece
        exact ⟨by decide, by decide⟩
    have hfound := keywordFrom_pieces isKeyword_key hpieces (some 's') text.toList
    rw [hcut] at hfound
    have hheader : spaced (c.names ++ (pieces "key".toList c.key ++ pieces "if".toList c.guard)) =
        spaced (c.names ++ ["if".toList]) ++ ' ' :: text.toList := by
      simp [hkey, Option.mem_def.mp hg, pieces]
    rw [← hheader] at hfound
    obtain ⟨t, ht, hiterable, hbindings⟩ := split?_of_keyed h.keyword_as hfound
    refine ⟨t, ht, hiterable, ?_⟩
    rw [hbindings]
    simpa using h.bindingNames?_word (' ' :: front)

end Header

section Reading

variable {read : String → Except Fault Expression}

theorem trim_of_isName {name : String} (h : isName name = true) : trim name = name := by
  rw [trim, trimList_of_forall fun c hc =>
    (isSpace_of_isNamePart ((isNamePart_of_isName h).2 c hc)).1, String.ofList_toList]

theorem parseName_of_isName {name : String} (h : isName name = true) (header : String) :
    parseName name header = .ok name := by
  simp [parseName, trim_of_isName h, h]

/-- A reader that ignores spaces at the ends of a text reads texts that differ only there alike. -/
theorem read_congr (hread : ∀ text, read (trim text) = read text) {a b : List Char}
    (h : trimList a = trimList b) : read (String.ofList a) = read (String.ofList b) := by
  rw [← hread (String.ofList a), ← hread (String.ofList b)]
  simp [trim, h]

theorem readOptional_map {α β γ ε : Type} {f : α → Except ε γ} {g : β → Except ε γ} {m : α → β}
    (h : ∀ a, g (m a) = f a) (o : Option α) : readOptional g (o.map m) = readOptional f o := by
  cases o <;> simp [readOptional, h]

/-- A text without the keyword has nothing to be replaced, nor with a space in front of it. -/
theorem conjoinFrom_of_free {cs : List Char} (h : FreeOf "as".toList cs) :
    conjoinFrom none (' ' :: cs) = ' ' :: cs := by
  have hnone : breakKeyword "as" none (' ' :: cs) = none := by
    show keywordFrom "as".toList none 0 .code _ = none
    rw [keywordFrom_separator isKeyword_as separates_space]
    rw [show keywordFrom "as".toList none 0 .code cs = none from h]
    rfl
  rw [conjoinFrom]
  split
  · rfl
  · next heq => simp [hnone] at heq

/-- **Reading a loop header.**  Let a header be joined from clauses that a reader accepts one by one.
It is read as these clauses exactly if they are apart; otherwise a keyword is seen where none was
written, and the header is refused because its names are gone. -/
theorem Loop.parse_header (hread : ∀ text, read (trim text) = read text) {c : Clauses} {l : Loop}
    (h : c.WellFormed) (hl : c.ReadAs read l) :
    (Loop.parse read c.header = .ok l ↔ c.Apart) ∧
      (¬ c.Apart → ∃ name, Loop.parse read c.header = .error (.invalidName name c.header)) := by
  have hiterable : read (String.ofList (c.iterable.toList ++ [' '])) = .ok l.iterable := by
    rw [read_congr hread (trimList_concat_space _), String.ofList_toList, hl.iterable]
  have hapart : c.Apart → Loop.parse read c.header = .ok l := by
    intro hapart
    obtain ⟨pad, hpad, hsplit⟩ := h.split?_header hapart
    have hindex : readOptional (fun cs => parseName (String.ofList cs) c.header)
        (c.index.map String.toList) = .ok l.index := by
      rw [hl.index]
      cases hc : c.index with
      | none => rfl
      | some index => simp [readOptional, parseName_of_isName (h.index index hc)]
    have hkey : readOptional (fun cs => read (String.ofList cs)) (c.key.map fun text =>
        ' ' :: (text.toList ++ if c.guard.isSome then [' '] else [])) = .ok l.key := by
      rw [← hl.key]
      refine readOptional_map (fun text => ?_) c.key
      have htrim : trimList (' ' :: (text.toList ++ if c.guard.isSome then [' '] else [])) =
          trimList text.toList := by
        rw [trimList_cons_space]
        split
        · exact trimList_concat_space _
        · rw [List.append_nil]
      rw [read_congr hread htrim, String.ofList_toList]
    have hguard : readOptional (fun cs => read (String.ofList (conjoinFrom none cs)))
        (c.guard.map fun text => ' ' :: text.toList) = .ok l.guard := by
      rw [← hl.guard]
      cases hc : c.guard with
      | none => rfl
      | some text =>
          simp only [Option.map_some, readOptional, conjoinFrom_of_free (h.guard text hc).2]
          rw [read_congr hread (trimList_cons_space _), String.ofList_toList]
    simp only [Loop.parse, hsplit, hiterable, h.bindingNames?_names hpad, String.ofList_toList,
      parseName_of_isName h.item, hindex, hkey, hguard, bind, Except.bind, pure, Except.pure]
    rw [← hl.item]
  have hnot : ¬ c.Apart → ∃ name, Loop.parse read c.header = .error (.invalidName name c.header) := by
    intro hnot
    obtain ⟨t, hsplit, ht, hnames⟩ := h.split?_of_not_apart hnot
    refine ⟨String.ofList (trimList t.bindings), ?_⟩
    simp only [Loop.parse, hsplit, ht, hiterable, hnames, bind, Except.bind]
  refine ⟨⟨fun hok => ?_, hapart⟩, hnot⟩
  by_contra hbad
  obtain ⟨name, herror⟩ := hnot hbad
  simp [herror] at hok

end Reading

/-- A loop with all clauses.  Its key holds the word that binds names, and its guard, behind the key,
holds the word for keys. -/
def fullClauses : Clauses :=
  { iterable := "rows.filter(r => r.as)", item := "row", index := some "i", key := some "row.as"
    guard := some "row.on && key" }

/-- It is read clause by clause. -/
theorem Loop.parse_header_full :
    fullClauses.header = "rows.filter(r => r.as) as row, i key row.as if row.on && key" ∧
      fullClauses.WellFormed ∧ fullClauses.Apart ∧ ∃ l,
        fullClauses.ReadAs (Script.javaScript.expression false) l ∧
        Loop.parse (Script.javaScript.expression false) fullClauses.header = .ok l := by
  have hwell : fullClauses.WellFormed :=
    ⟨by decide, by decide, by rintro _ ⟨⟩; decide, by rintro _ ⟨⟩; decide, by rintro _ ⟨⟩; decide⟩
  have hapart : fullClauses.Apart := ⟨by decide, by decide, fun h => absurd h (by decide)⟩
  have hread : fullClauses.ReadAs (Script.javaScript.expression false)
      { iterable := ⟨"rows.filter(r => r.as)", ["rows"], [], .other, none⟩
        item := "row", index := some "i"
        key := some ⟨"row.as", ["row"], [], .member, none⟩
        guard := some ⟨"row.on && key", ["row", "key"], [], .other, none⟩ } := by
    constructor <;> decide +kernel
  have hfull := Loop.parse_header (Script.readsTrimmed_javaScript false).trimmed hwell hread
  exact ⟨by decide, hwell, hapart, _, hread, hfull.1.mpr hapart⟩

/-- A loop whose item is called `key`. -/
def keyClauses : Clauses := { iterable := "items", item := "key" }

/-- The name of the item is taken for the keyword, although there is no key, and the header is
refused. -/
theorem Loop.parse_header_refuses_key :
    keyClauses.header = "items as key" ∧ keyClauses.WellFormed ∧
      keyClauses.ReadAs (Script.javaScript.expression false)
        { iterable := ⟨"items", ["items"], [], .name, none⟩, item := "key" } ∧
      Loop.parse (Script.javaScript.expression false) keyClauses.header =
        .error (.invalidName "" "items as key") := by
  refine ⟨by decide, ⟨by decide, by decide, nofun, nofun, nofun⟩, ?_, by decide +kernel⟩
  constructor <;> decide +kernel

end Stencil.Markup
