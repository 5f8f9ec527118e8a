import Stencil.Proofs.StyleRoundTrip
import Stencil.Style.Flatten

/-!
# Scoping inserts an attribute

A selector is divided into compounds and the combinators behind them, and no character is lost or
moved (`divides_compounds`).  A selector without a complete `:global(…)` has one scoped form, which
is the selector itself, or two, and these are the selector with the attribute put into it once: in
front of the first compound that does not stand for the document, as an element around it, and
inside that compound (`scopeSelector_inserts`).
-/

namespace Stencil.Style

open Stencil.Text

/-! ### Dividing a selector -/

/-- Whether no combinator stands in a text outside brackets and strings. -/
def isUncombined : Nest → List Char → Bool
  | _, [] => true
  | n, c :: rest => !(n.isTop && isCombinator c) && isUncombined (n.step c) rest

/-- A compound holds no combinator, and a combinator behind it finds its brackets and strings
closed. -/
structure Compound.Sound (c : Compound) : Prop where
  uncombined : isUncombined {} c.text = true
  combinator : ∀ x ∈ c.combinator, isCombinator x = true
  closed : c.combinator ≠ [] → (c.text.foldl Nest.step {}).isTop = true

/-- The compounds with their combinators are the selector, character for character; one begins
wherever something follows a combinator. -/
structure Divides (selector : List Char) (parts : List Compound) : Prop where
  join : Compound.join parts = selector
  sound : ∀ c ∈ parts, c.Sound
  apart : parts.IsChain fun a b => a.combinator ≠ [] ∧ b.text ≠ []
  nonempty : parts ≠ []

/-- Compounds join one after another. -/
theorem Compound.join_cons (c : Compound) (cs : List Compound) :
    Compound.join (c :: cs) = c.text ++ c.combinator ++ Compound.join cs :=
  List.flatMap_cons

/-- Lists of compounds join one behind another. -/
theorem Compound.join_append (as bs : List Compound) :
    Compound.join (as ++ bs) = Compound.join as ++ Compound.join bs :=
  List.flatMap_append

/-- Two texts joined have no combinator exactly if both have none. -/
theorem isUncombined_append (n : Nest) (cs more : List Char) :
    isUncombined n (cs ++ more) =
      (isUncombined n cs && isUncombined (cs.foldl Nest.step n) more) := by
  induction cs generalizing n with
  | nil => rfl
  | cons c rest ih =>
      rw [List.cons_append, isUncombined, isUncombined, ih, List.foldl_cons, Bool.and_assoc]

/-- A character that is no combinator is uncombined. -/
theorem isUncombined_singleton {n : Nest} {c : Char} (h : ¬ (n.isTop && isCombinator c) = true) :
    isUncombined n [c] = true := by
  rw [isUncombined, isUncombined, Bool.and_true, Bool.not_eq_true']
  exact Bool.eq_false_iff.mpr h

/-- A sound compound divides its own text. -/
theorem divides_singleton {c : Compound} (h : c.Sound) : Divides (c.text ++ c.combinator) [c] where
  join := by rw [Compound.join_cons]; exact List.append_nil _
  sound := List.forall_mem_singleton.mpr h
  apart := List.isChain_singleton c
  nonempty := List.cons_ne_nil c []

/-- A compound in front, where its combinator ends. -/
theorem Divides.cons {c : Compound} {rest : List Char} {parts : List Compound}
    (h : Divides rest parts) (hc : c.Sound) (hne : c.combinator ≠ [])
    (hhead : ∀ first ∈ parts.head?, first.text ≠ []) :
    Divides (c.text ++ c.combinator ++ rest) (c :: parts) where
  join := by rw [Compound.join_cons, h.join]
  sound := List.forall_mem_cons.mpr ⟨hc, h.sound⟩
  apart := List.isChain_cons.mpr ⟨fun first hfirst => ⟨hne, hhead first hfirst⟩, h.apart⟩
  nonempty := List.cons_ne_nil c parts

/-- **The scan.**  What has been read of the last compound is sound, and what follows either goes on
with it or begins the next one.  The first compound found goes on with the text read before. -/
theorem divides_compoundsFrom {n : Nest} {text combinator cs : List Char}
    (hn : n = text.reverse.foldl Nest.step {})
    (hsound : Compound.Sound ⟨text.reverse, combinator.reverse⟩) :
    Divides (text.reverse ++ combinator.reverse ++ cs) (compoundsFrom n text combinator cs) ∧
      ∀ first ∈ (compoundsFrom n text combinator cs).head?, text.reverse <+: first.text := by
  induction cs generalizing n text combinator with
  | nil =>
      rw [List.append_nil]
      refine ⟨divides_singleton hsound, ?_⟩
      intro first hfirst
      obtain rfl := Option.some.inj hfirst
      exact List.prefix_rfl
  | cons c rest ih =>
      rw [compoundsFrom]
      by_cases hcombinator : (n.isTop && isCombinator c) = true
      · rw [if_pos hcombinator]
        obtain ⟨htop, hc⟩ := Bool.and_eq_true_iff.mp hcombinator
        have hmore : Compound.Sound ⟨text.reverse, (c :: combinator).reverse⟩ := by
          refine ⟨hsound.uncombined, ?_, fun _ => hn ▸ htop⟩
          intro x hx
          rcases List.mem_cons.mp (List.mem_reverse.mp hx) with rfl | hx
          · exact hc
          · exact hsound.combinator x (List.mem_reverse.mpr hx)
        have hnext := ih hn hmore
        rwa [List.reverse_cons, ← List.append_assoc, List.append_assoc _ [c] rest] at hnext
      · rw [if_neg hcombinator]
        by_cases hflush : (n.quote.isNone && !combinator.isEmpty) = true
        · -- behind a combinator the scan is outside brackets and strings, as at the start
          rw [if_pos hflush]
          have hne : combinator.reverse ≠ [] := by simpa using (Bool.and_eq_true_iff.mp hflush).2
          have htop : n.isTop = true := hn ▸ hsound.closed hne
          obtain rfl : n = {} := Nest.eq_of_isTop htop
          have hfirst : Compound.Sound ⟨[c].reverse, [].reverse⟩ :=
            ⟨isUncombined_singleton hcombinator, by simp, by simp⟩
          obtain ⟨hrest, hhead⟩ := ih (n := Nest.step {} c) rfl hfirst
          refine ⟨hrest.cons hsound hne ?_, ?_⟩
          · intro first hmem hempty
            have hprefix := hhead first hmem
            rw [hempty] at hprefix
            simp at hprefix
          · intro first hmem
            obtain rfl := Option.some.inj hmem
            exact List.prefix_rfl
        · rw [if_neg hflush]
          have hnone : combinator = [] := by
            by_contra hne
            have htop : n.isTop = true := hn ▸ hsound.closed (by simpa using hne)
            rw [Nest.eq_of_isTop htop] at hflush
            exact hflush (by simpa using hne)
          subst hnone
          have hmore : Compound.Sound ⟨(c :: text).reverse, [].reverse⟩ := by
            refine ⟨?_, by simp, by simp⟩
            rw [List.reverse_cons, isUncombined_append, ← hn, hsound.uncombined, Bool.true_and]
            exact isUncombined_singleton hcombinator
          have hstep : n.step c = (c :: text).reverse.foldl Nest.step {} := by
            rw [List.reverse_cons, List.foldl_append, ← hn]
            rfl
          obtain ⟨hrest, hhead⟩ := ih hstep hmore
          rw [List.reverse_cons] at hrest hhead
          refine ⟨by simpa using hrest, fun first hmem => ?_⟩
          exact (List.prefix_append _ _).trans (hhead first hmem)

/-- **Compounds.**  Whatever the brackets and strings of a selector, dividing loses nothing of it. -/
theorem divides_compounds (selector : List Char) :
    Divides (trimList selector) (compounds selector) :=
  (@divides_compoundsFrom {} [] [] (trimList selector) rfl ⟨rfl, by simp, by simp⟩).1

/-! ### Compounds that stand for the document -/

/-- `:root`, `html` or `body`, alone or with further simple selectors. -/
def StandsForDocument (compound : List Char) : Prop :=
  ∃ base ∈ rootCompounds, ∃ more, compound = base.toList ++ more ∧
    ∀ c ∈ more.head?, c ∈ ['.', '[', '#', ':']

/-- A compound is the root exactly if it stands for the document. -/
theorem isRoot_iff (compound : List Char) :
    isRoot compound = true ↔ StandsForDocument compound := by
  simp only [isRoot, List.any_eq_true, StandsForDocument]
  refine exists_congr fun base => and_congr_right fun _ => ?_
  rw [Bool.and_eq_true, List.isPrefixOf_iff_prefix]
  constructor
  · rintro ⟨⟨more, rfl⟩, hhead⟩
    refine ⟨more, rfl, ?_⟩
    rw [List.drop_left] at hhead
    cases more with
    | nil => simp
    | cons c rest => simpa [or_assoc] using hhead
  · rintro ⟨more, rfl, hhead⟩
    refine ⟨List.prefix_append _ _, ?_⟩
    rw [List.drop_left]
    cases more with
    | nil => rfl
    | cons c rest => simpa [or_assoc] using hhead

/-! ### The attribute -/

/-- A complete `:global(…)` stands in the text. -/
def HoldsGlobal (cs : List Char) : Prop :=
  ∃ before inner after, cs = before ++ ":global(".toList ++ (inner ++ ')' :: after)

/-- A selector is found global exactly if it holds the mark for it. -/
theorem hasGlobal_iff (cs : List Char) : hasGlobal cs = true ↔ HoldsGlobal cs := by
  rw [hasGlobal]
  constructor
  · intro h
    split at h
    · next before after hbreak =>
        obtain ⟨inner, rest, rfl⟩ := List.append_of_mem (List.contains_iff_mem.mp h)
        exact ⟨before, inner, rest, breakOn_eq hbreak⟩
    · simp at h
  · rintro ⟨before, inner, after, rfl⟩
    obtain ⟨front, back, hbreak, hback⟩ :=
      exists_breakOn ":global(".toList before (inner ++ ')' :: after)
    rw [hbreak]
    exact List.contains_iff_mem.mpr (hback.subset (by simp))

/-- The attribute that confines a stylesheet to the component with the given hash. -/
def scopeText (hash : String) : String := "[" ++ scopeAttribute ++ "=\"" ++ hash ++ "\"]"

/-- The forms of a divided selector that an attribute makes: none is needed if it stands for the
document, and otherwise the attribute is put in once, in front of or inside the first compound that
does not. -/
inductive Inserts (scope : List Char) : List Compound → List (List Char) → Prop
  | document {parts : List Compound} (h : ∀ c ∈ parts, StandsForDocument c.text) :
      Inserts scope parts [Compound.join parts]
  | element {roots others : List Compound} {first : Compound} {left right : List Char}
      (hroots : ∀ c ∈ roots, StandsForDocument c.text) (hfirst : ¬ StandsForDocument first.text)
      (htext : first.text = left ++ right) :
      Inserts scope (roots ++ first :: others)
        [Compound.join roots ++ scope ++ ' ' :: Compound.join (first :: others),
          Compound.join roots ++ (left ++ scope ++ right) ++ first.combinator ++
            Compound.join others]

/-- The attribute stands at one place of the compound. -/
theorem exists_attach (compound scope : List Char) :
    ∃ left right, compound = left ++ right ∧ attach compound scope = left ++ scope ++ right := by
  rw [attach]
  split
  · next n _ => exact ⟨compound.take n, compound.drop n, (List.take_append_drop n compound).symm, rfl⟩
  · exact ⟨compound, [], (List.append_nil _).symm, (List.append_nil _).symm⟩

/-- Nothing is taken from the end of a part of a trimmed text, nor if something else that does not
end in white space is put in front of that part. -/
theorem trimEndList_insert {before scope after : List Char}
    (h : trimList (before ++ after) = before ++ after)
    (hscope : ∃ c ∈ scope.getLast?, isSpace c = false) :
    trimEndList (before ++ scope ++ after) = before ++ scope ++ after := by
  rw [trimEndList_eq_self_iff]
  obtain ⟨last, hlast, hspace⟩ := hscope
  intro c hc
  by_cases hafter : after = []
  · subst hafter
    have hne : scope ≠ [] := by
      rintro rfl
      simp at hlast
    rw [List.append_nil, List.getLast?_append_of_ne_nil _ hne, hlast] at hc
    obtain rfl := Option.some.inj hc
    exact hspace
  · rw [List.getLast?_append_of_ne_nil _ hafter] at hc
    refine (trimList_eq_self_iff.mp h).2 c ?_
    rwa [List.getLast?_append_of_ne_nil _ hafter]

/-- The forms of a selector without a complete `:global(…)`, put together of its compounds: nothing is
taken from their ends. -/
theorem scopeChars_cases {selector scope : List Char} (h : ¬ HoldsGlobal selector)
    (hscope : ∃ c ∈ scope.getLast?, isSpace c = false) :
    (∀ c ∈ compounds selector, StandsForDocument c.text) ∧
        scopeChars selector scope = [Compound.join (compounds selector)] ∨
      ∃ roots first others, compounds selector = roots ++ first :: others ∧
        (∀ c ∈ roots, StandsForDocument c.text) ∧ ¬ StandsForDocument first.text ∧
        scopeChars selector scope =
          [Compound.join roots ++ scope ++ ' ' :: Compound.join (first :: others),
            Compound.join roots ++ attach first.text scope ++ first.combinator ++
              Compound.join others] := by
  have hglobal : hasGlobal selector = false := by
    rw [Bool.eq_false_iff]
    exact fun hglobal => h ((hasGlobal_iff selector).mp hglobal)
  have hjoin := (divides_compounds selector).join
  have htrim : trimList (Compound.join (compounds selector)) =
      Compound.join (compounds selector) := by
    rw [hjoin, trimList_trimList]
  have hsplit := (compounds selector).takeWhile_append_dropWhile (p := fun c => isRoot c.text)
  have hroots : ∀ c ∈ (compounds selector).takeWhile fun c => isRoot c.text,
      StandsForDocument c.text := fun c hc =>
    (isRoot_iff c.text).mp (List.all_eq_true.mp List.all_takeWhile c hc)
  rw [scopeChars, hglobal, if_neg Bool.false_ne_true]
  dsimp only
  split
  · next hnone =>
      rw [hnone, List.append_nil] at hsplit
      rw [hsplit] at hroots
      rw [← hjoin]
      exact .inl ⟨hroots, rfl⟩
  · next first others hrest =>
      have hfirst : ¬ StandsForDocument first.text := by
        have hnot := List.head?_dropWhile_not (fun c : Compound => isRoot c.text)
          (compounds selector)
        rw [hrest] at hnot
        rw [← isRoot_iff, Bool.not_eq_true]
        exact hnot
      obtain ⟨left, right, htext, hattach⟩ := exists_attach first.text scope
      rw [hrest] at hsplit
      generalize (compounds selector).takeWhile (fun c => isRoot c.text) = roots at *
      rw [← hsplit, Compound.join_append] at htrim
      have hsecond : trimEndList (Compound.join roots ++ attach first.text scope ++
          first.combinator ++ Compound.join others) =
          Compound.join roots ++ attach first.text scope ++ first.combinator ++
            Compound.join others := by
        rw [Compound.join_cons, htext] at htrim
        have hinsert := @trimEndList_insert (Compound.join roots ++ left) scope
          (right ++ first.combinator ++ Compound.join others) (by simpa using htrim) hscope
        rw [hattach]
        simpa using hinsert
      rw [hsecond, trimEndList_of_suffix htrim (List.suffix_append _ _)]
      exact .inr ⟨roots, first, others, hsplit.symm, hroots, hfirst, rfl⟩

/-- Scoping inserts the scope into each compound. -/
theorem inserts_scopeChars {selector scope : List Char} (h : ¬ HoldsGlobal selector)
    (hscope : ∃ c ∈ scope.getLast?, isSpace c = false) :
    Inserts scope (compounds selector) (scopeChars selector scope) := by
  rcases scopeChars_cases h hscope with ⟨hall, hforms⟩ | ⟨roots, first, others, hparts, hroots,
    hfirst, hforms⟩
  · rw [hforms]
    exact .document hall
  · obtain ⟨left, right, htext, hattach⟩ := exists_attach first.text scope
    rw [hforms, hattach, hparts]
    exact .element hroots hfirst htext

/-- The attribute does not end in white space. -/
theorem scopeText_end (hash : String) : ∃ c ∈ (scopeText hash).toList.getLast?, isSpace c = false := by
  have htext : (scopeText hash).toList =
      '[' :: (scopeAttribute.toList ++ '=' :: '"' :: (hash.toList ++ ['"'])) ++ [']'] := by
    simp [scopeText]
  exact ⟨']', by rw [htext]; exact List.getLast?_concat, by decide⟩

/-- **Scoping inserts an attribute.**  Every selector is divided into compounds and combinators that
put together again are the selector without white space around it.  If it has no complete
`:global(…)` then its scoped form is this selector alone, when all compounds stand for the document,
and otherwise it has two: let the compounds at the start that stand for the document be set apart
with their combinators from what is left of the selector.  The first form is these, the attribute, a
space and the rest; the second is the selector with the attribute put in at one place of the first
compound of the rest. -/
theorem scopeSelector_inserts (selector hash : String) :
    Divides (trim selector).toList (compounds selector.toList) ∧
      (¬ HoldsGlobal selector.toList →
        Inserts (scopeText hash).toList (compounds selector.toList)
          ((scopeSelector selector (scopeText hash)).map String.toList)) := by
  refine ⟨by simpa [trim] using divides_compounds selector.toList, fun h => ?_⟩
  simpa [scopeSelector] using inserts_scopeChars h (scopeText_end hash)

/-- A pseudo-element in the first compound behind the document, and white space around all. -/
theorem scopeSelector_inserts_within :
    ¬ HoldsGlobal " html.dark > p.a::before ~ [t=\"> b\"] ".toList ∧
      Inserts (scopeText "h").toList
        [⟨"html.dark".toList, " > ".toList⟩, ⟨"p.a::before".toList, " ~ ".toList⟩,
          ⟨"[t=\"> b\"]".toList, []⟩]
        ["html.dark > [this=\"h\"] p.a::before ~ [t=\"> b\"]".toList,
          "html.dark > p.a[this=\"h\"]::before ~ [t=\"> b\"]".toList] := by
  have hnone : ¬ HoldsGlobal " html.dark > p.a::before ~ [t=\"> b\"] ".toList := by
    rw [← hasGlobal_iff]
    decide +kernel
  have hinserts := (scopeSelector_inserts " html.dark > p.a::before ~ [t=\"> b\"] " "h").2 hnone
  have hparts : compounds " html.dark > p.a::before ~ [t=\"> b\"] ".toList =
      [⟨"html.dark".toList, " > ".toList⟩, ⟨"p.a::before".toList, " ~ ".toList⟩,
        ⟨"[t=\"> b\"]".toList, []⟩] := by
    decide +kernel
  have hforms : (scopeSelector " html.dark > p.a::before ~ [t=\"> b\"] " (scopeText "h")).map
      String.toList = ["html.dark > [this=\"h\"] p.a::before ~ [t=\"> b\"]".toList,
        "html.dark > p.a[this=\"h\"]::before ~ [t=\"> b\"]".toList] := by
    decide +kernel
  rw [hparts, hforms] at hinserts
  exact ⟨hnone, hinserts⟩

end Stencil.Style
