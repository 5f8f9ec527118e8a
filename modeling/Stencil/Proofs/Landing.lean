import Stencil.Proofs.Scoping

/-!
# Where the attribute lands

The attribute that confines a selector goes to the first double colon of a compound, to the first
pseudo-element with a single colon if there is none, and else to the end (`AtMark`).  These places are
found as plain text.  The attribute belongs outside of brackets and strings and not behind a backslash,
in front of the first pseudo-element there or at the end (`Lands`).  A compound ends outside of brackets
and strings if the selector does (`Divides.closed`), so that it is the text of pseudo-elements inside of
them that leads the attribute astray (`scopeSelector_lands`).
-/

namespace Stencil.Style

open Stencil.Text

/-! ### Places -/

/-- Where a reader of a selector stands: what it is inside of, and whether a backslash takes the next
character with it. -/
structure Place where
  nest : Nest := {}
  escaped : Bool := false

/-- The place behind a character. -/
def Place.step (p : Place) (c : Char) : Place :=
  if p.escaped then { p with escaped := false }
  else if c == '\\' then { p with escaped := true }
  else { p with nest := p.nest.step c }

/-- What follows the text is outside of brackets and strings and not directly behind a backslash. -/
def Free (cs : List Char) : Prop :=
  (cs.foldl Place.step {}).nest.isTop = true ∧ (cs.foldl Place.step {}).escaped = false

instance (cs : List Char) : Decidable (Free cs) := inferInstanceAs (Decidable (_ ∧ _))

/-- All brackets and strings of the text are closed at its end. -/
def Closed (cs : List Char) : Prop := (cs.foldl Nest.step {}).isTop = true

instance (cs : List Char) : Decidable (Closed cs) := inferInstanceAs (Decidable (_ = _))

theorem foldl_step_of_notMem {cs : List Char} (h : '\\' ∉ cs) (n : Nest) :
    cs.foldl Place.step ⟨n, false⟩ = ⟨cs.foldl Nest.step n, false⟩ := by
  induction cs generalizing n with
  | nil => rfl
  | cons c rest ih =>
      obtain ⟨hc, hrest⟩ : '\\' ≠ c ∧ '\\' ∉ rest := by simpa using h
      have hstep : Place.step ⟨n, false⟩ c = ⟨n.step c, false⟩ := by
        simp [Place.step, Ne.symm hc]
      rw [List.foldl_cons, hstep, ih hrest, List.foldl_cons]

/-- Without backslashes, a place is free where everything is closed. -/
theorem Closed.free {cs : List Char} (h : Closed cs) (hslash : '\\' ∉ cs) : Free cs := by
  rw [Free, foldl_step_of_notMem hslash]
  exact ⟨h, rfl⟩

/-! ### First occurrences -/

/-- The ways to divide a text are its places. -/
theorem forall_append_iff {cs : List Char} {P : List Char → List Char → Prop} :
    (∀ l r, cs = l ++ r → P l r) ↔ ∀ n < cs.length + 1, P (cs.take n) (cs.drop n) := by
  constructor
  · intro h n _
    exact h _ _ (List.take_append_drop n cs).symm
  · rintro h l r rfl
    have hplace := h l.length (by rw [List.length_append]; omega)
    rwa [List.take_left, List.drop_left] at hplace

/-- A text is divided where it first goes on in some way. -/
structure IsFirst (P : List Char → Prop) (left right : List Char) : Prop where
  here : P right
  first : ∀ l r, left ++ right = l ++ r → P r → left.length ≤ l.length

/-- The text around a needle is divided at its first occurrence. -/
theorem breakOn_isFirst {needle cs before after : List Char}
    (h : breakOn needle cs = some (before, after)) :
    IsFirst (needle <+: ·) before (needle ++ after) := by
  refine ⟨List.prefix_append _ _, ?_⟩
  intro l r hsplit hr
  rw [← List.append_assoc, ← breakOn_eq h] at hsplit
  induction cs generalizing before l with
  | nil =>
      simp only [breakOn] at h
      split at h
      · obtain ⟨rfl, rfl⟩ := Prod.mk.inj (Option.some.inj h)
        exact Nat.zero_le _
      · simp at h
  | cons c rest ih =>
      simp only [breakOn] at h
      split at h
      · obtain ⟨rfl, rfl⟩ := Prod.mk.inj (Option.some.inj h)
        exact Nat.zero_le _
      · next hnot =>
          obtain ⟨⟨front, back⟩, hfront, heq⟩ := Option.map_eq_some_iff.mp h
          simp only [Prod.mk.injEq] at heq
          obtain ⟨rfl, rfl⟩ := heq
          cases l with
          | nil =>
              rw [List.nil_append] at hsplit
              rw [hsplit] at hnot
              exact absurd (List.isPrefixOf_iff_prefix.mpr hr) hnot
          | cons d more =>
              have hle := ih hfront more (List.cons.inj hsplit).2
              simpa using hle

theorem indexOf?_isFirst {needle : String} {cs : List Char} {n : Nat}
    (h : indexOf? needle cs = some n) : IsFirst (needle.toList <+: ·) (cs.take n) (cs.drop n) := by
  obtain ⟨⟨before, after⟩, hbreak, rfl⟩ := Option.map_eq_some_iff.mp h
  have hcs := breakOn_eq hbreak
  rw [List.append_assoc] at hcs
  have hfirst := breakOn_isFirst hbreak
  rwa [hcs, List.take_left, List.drop_left]

/-- Where a needle occurs, its first occurrence is found, not behind it. -/
theorem exists_indexOf? {needle : String} {l r : List Char} (h : needle.toList <+: r) :
    ∃ n ≤ l.length, indexOf? needle (l ++ r) = some n := by
  obtain ⟨after, rfl⟩ := h
  obtain ⟨before, back, hbreak, -⟩ := exists_breakOn needle.toList l after
  rw [List.append_assoc] at hbreak
  have hle := (breakOn_isFirst hbreak).first l (needle.toList ++ after)
    (by rw [← List.append_assoc, ← breakOn_eq hbreak]) (List.prefix_append _ _)
  exact ⟨before.length, hle, by rw [indexOf?, hbreak]; rfl⟩

theorem least?_eq_none {ns : List Nat} (h : least? ns = none) : ns = [] := by
  cases ns with
  | nil => rfl
  | cons n rest =>
      rw [least?] at h
      split at h <;> simp at h

theorem least?_eq_some {ns : List Nat} {m : Nat} (h : least? ns = some m) : m ∈ ns ∧ ∀ n ∈ ns, m ≤ n := by
  induction ns generalizing m with
  | nil => simp [least?] at h
  | cons n rest ih =>
      rw [least?] at h
      split at h
      · next k hk =>
          obtain ⟨hmem, hle⟩ := ih hk
          obtain rfl := Option.some.inj h
          refine ⟨?_, ?_⟩
          · rcases Nat.le_total n k with hnk | hkn
            · rw [Nat.min_eq_left hnk]
              exact List.mem_cons_self
            · rw [Nat.min_eq_right hkn]
              exact List.mem_cons_of_mem _ hmem
          · intro x hx
            rcases List.mem_cons.mp hx with rfl | hx
            · exact Nat.min_le_left _ _
            · exact (Nat.min_le_right _ _).trans (hle x hx)
      · next hnone =>
          obtain rfl := Option.some.inj h
          rw [least?_eq_none hnone]
          simp

/-! ### The place of the attribute -/

/-- A pseudo-element begins here that is written with two colons. -/
def StartsDouble (cs : List Char) : Prop := "::".toList <+: cs

/-- One of the pseudo-elements begins here that are also written with a single colon. -/
def StartsShort (cs : List Char) : Prop := ∃ name ∈ shortPseudoElements, name.toList <+: cs

/-- A pseudo-element begins here. -/
def StartsPseudoElement (cs : List Char) : Prop := StartsDouble cs ∨ StartsShort cs

instance (cs : List Char) : Decidable (StartsDouble cs) := inferInstanceAs (Decidable (_ <+: _))

instance (cs : List Char) : Decidable (StartsShort cs) :=
  inferInstanceAs (Decidable (∃ name ∈ shortPseudoElements, name.toList <+: cs))

instance (cs : List Char) : Decidable (StartsPseudoElement cs) := inferInstanceAs (Decidable (_ ∨ _))

/-- The place of a compound to which the attribute goes, by its text alone: the first double colon, the
first of the other pseudo-elements if there is none, and else the end. -/
inductive AtMark (left right : List Char) : Prop
  | double (hfirst : IsFirst StartsDouble left right)
  | short (hnone : ∀ l r, left ++ right = l ++ r → ¬ StartsDouble r)
      (hfirst : IsFirst StartsShort left right)
  | bare (hnone : ∀ l r, left ++ right = l ++ r → ¬ StartsPseudoElement r) (hend : right = [])

theorem exists_atMark (compound scope : List Char) :
    ∃ left right, compound = left ++ right ∧ attach compound scope = left ++ scope ++ right ∧
      AtMark left right := by
  rw [attach, pseudoElement?]
  cases hdouble : indexOf? "::" compound with
  | some n =>
      exact ⟨compound.take n, compound.drop n, (List.take_append_drop n compound).symm, rfl,
        .double (indexOf?_isFirst hdouble)⟩
  | none =>
      have hnone : ∀ l r, compound = l ++ r → ¬ StartsDouble r := by
        rintro l r rfl hr
        obtain ⟨n, -, hn⟩ := exists_indexOf? (l := l) hr
        rw [hdouble] at hn
        simp at hn
      dsimp only
      cases hleast : least? (shortPseudoElements.filterMap (indexOf? · compound)) with
      | some n =>
          obtain ⟨hmem, hle⟩ := least?_eq_some hleast
          obtain ⟨name, hname, hn⟩ := List.mem_filterMap.mp hmem
          have hsplit : compound.take n ++ compound.drop n = compound := List.take_append_drop n compound
          refine ⟨compound.take n, compound.drop n, hsplit.symm, rfl, .short ?_ ⟨?_, ?_⟩⟩
          · rwa [hsplit]
          · exact ⟨name, hname, (indexOf?_isFirst hn).here⟩
          · rintro l r hr ⟨other, hother, hstarts⟩
            obtain ⟨k, hk, hfound⟩ := exists_indexOf? (l := l) hstarts
            rw [← hr, hsplit] at hfound
            have hnk := hle k (List.mem_filterMap.mpr ⟨other, hother, hfound⟩)
            rw [List.length_take]
            omega
      | none =>
          refine ⟨compound, [], (List.append_nil _).symm, (List.append_nil _).symm, .bare ?_ rfl⟩
          rw [List.append_nil]
          rintro l r hr (hstarts | ⟨name, hname, hstarts⟩)
          · exact hnone l r hr hstarts
          · obtain ⟨k, -, hfound⟩ := exists_indexOf? (l := l) hstarts
            rw [← hr] at hfound
            have hmem : k ∈ shortPseudoElements.filterMap (indexOf? · compound) :=
              List.mem_filterMap.mpr ⟨name, hname, hfound⟩
            rw [least?_eq_none hleast] at hmem
            simp at hmem

/-- Where the attribute belongs in a compound behind `before`: outside of brackets and strings and not
behind a backslash, directly in front of the first pseudo-element that begins at such a place and, if
there is none, at the end. -/
structure Lands (before left right : List Char) : Prop where
  free : Free (before ++ left)
  element : StartsPseudoElement right ∨ right = []
  first : ∀ l r, left ++ right = l ++ r → Free (before ++ l) → StartsPseudoElement r →
    left.length ≤ l.length

instance (before left right : List Char) : Decidable (Lands before left right) :=
  decidable_of_iff (Free (before ++ left) ∧ (StartsPseudoElement right ∨ right = []) ∧
      ∀ n < (left ++ right).length + 1, Free (before ++ (left ++ right).take n) →
        StartsPseudoElement ((left ++ right).drop n) →
          left.length ≤ ((left ++ right).take n).length)
    ⟨fun h => ⟨h.1, h.2.1, forall_append_iff.mpr h.2.2⟩,
      fun h => ⟨h.free, h.element, forall_append_iff.mp h.first⟩⟩

/-- There is one such place. -/
theorem Lands.unique {before left right left' right' : List Char} (h : Lands before left right)
    (h' : Lands before left' right') (heq : left ++ right = left' ++ right') : left = left' := by
  have hle : ∀ {a b a' b' : List Char}, Lands before a b → Lands before a' b' →
      a ++ b = a' ++ b' → a.length ≤ a'.length := by
    intro a b a' b' ha ha' hab
    rcases ha'.element with hstarts | hend
    · exact ha.first a' b' hab ha'.free hstarts
    · have hlength := congrArg List.length hab
      rw [hend, List.append_nil, List.length_append] at hlength
      omega
  have hlength := Nat.le_antisymm (hle h h' heq) (hle h' h heq.symm)
  exact (List.append_inj heq hlength).1

/-- No pseudo-element with a single colon begins outside of brackets and strings in front of the
place. -/
def NoShortBefore (before left right : List Char) : Prop :=
  ∀ l r, left ++ right = l ++ r → Free (before ++ l) → StartsShort r → left.length ≤ l.length

instance (before left right : List Char) : Decidable (NoShortBefore before left right) :=
  decidable_of_iff _ forall_append_iff.symm

/-- All pseudo-elements of a compound begin outside of brackets and strings. -/
def Exposed (before compound : List Char) : Prop :=
  ∀ l r, compound = l ++ r → StartsPseudoElement r → Free (before ++ l)

instance (before compound : List Char) : Decidable (Exposed before compound) :=
  decidable_of_iff _ forall_append_iff.symm

/-- **The place found is the right one** exactly if it is outside of brackets and strings, and a double
colon was not taken for a pseudo-element with a single colon in front of it. -/
theorem AtMark.lands_iff {left right : List Char} (h : AtMark left right) (before : List Char) :
    Lands before left right ↔ Free (before ++ left) ∧ NoShortBefore before left right := by
  constructor
  · intro hlands
    exact ⟨hlands.free, fun l r hr hfree hshort => hlands.first l r hr hfree (.inr hshort)⟩
  · rintro ⟨hfree, hshort⟩
    cases h with
    | double hfirst =>
        refine ⟨hfree, .inl (.inl hfirst.here), ?_⟩
        rintro l r hr hl (hdouble | hstarts)
        · exact hfirst.first l r hr hdouble
        · exact hshort l r hr hl hstarts
    | short hnone hfirst =>
        refine ⟨hfree, .inl (.inr hfirst.here), ?_⟩
        rintro l r hr - (hdouble | hstarts)
        · exact absurd hdouble (hnone l r hr)
        · exact hfirst.first l r hr hstarts
    | bare hnone hend =>
        exact ⟨hfree, .inr hend, fun l r hr _ hstarts => absurd hstarts (hnone l r hr)⟩

/-- Where every pseudo-element is outside of brackets and strings, and so is the end, the place found
is. -/
theorem AtMark.free {left right before : List Char} (h : AtMark left right)
    (hmarks : Exposed before (left ++ right))
    (hend : Free (before ++ (left ++ right))) : Free (before ++ left) := by
  cases h with
  | double hfirst => exact hmarks left right rfl (.inl hfirst.here)
  | short _ hfirst => exact hmarks left right rfl (.inr hfirst.here)
  | bare _ hnil =>
      rw [hnil, List.append_nil] at hend
      exact hend

/-! ### The ends of compounds -/

/-- Combinators open and close nothing. -/
theorem Nest.step_of_isCombinator {c : Char} (h : isCombinator c = true) : Nest.step {} c = {} := by
  have hne : ∀ d, isCombinator d = false → c ≠ d := by
    rintro d hd rfl
    simp [h] at hd
  simp [Nest.step, hne '"' rfl, hne '\'' rfl, hne '(' rfl, hne '[' rfl, hne ')' rfl, hne ']' rfl]

/-- Behind a compound and its combinator everything is closed. -/
theorem Compound.Sound.closed_behind {c : Compound} (h : c.Sound) (hne : c.combinator ≠ []) :
    (c.text ++ c.combinator).foldl Nest.step {} = {} := by
  have hcombinator : ∀ cs : List Char, (∀ x ∈ cs, isCombinator x = true) →
      cs.foldl Nest.step {} = {} := by
    intro cs hcs
    induction cs with
    | nil => rfl
    | cons x rest ih =>
        obtain ⟨hx, hrest⟩ := List.forall_mem_cons.mp hcs
        rw [List.foldl_cons, Nest.step_of_isCombinator hx, ih hrest]
  rw [List.foldl_append, Nest.eq_of_isTop (h.closed hne), hcombinator _ h.combinator]

theorem Compound.foldl_step_join {cs : List Compound} (hsound : ∀ c ∈ cs, c.Sound)
    (hne : ∀ c ∈ cs, c.combinator ≠ []) : (Compound.join cs).foldl Nest.step {} = {} := by
  induction cs with
  | nil => rfl
  | cons c rest ih =>
      obtain ⟨hc, hrest⟩ := List.forall_mem_cons.mp hsound
      obtain ⟨hcombinator, hcombinators⟩ := List.forall_mem_cons.mp hne
      rw [Compound.join_cons, List.foldl_append, hc.closed_behind hcombinator, ih hrest hcombinators]

/-- A compound that another one follows has a combinator. -/
theorem Divides.combinator_ne {selector : List Char} {roots others : List Compound}
    {first : Compound} (h : Divides selector (roots ++ first :: others)) :
    ∀ c ∈ roots, c.combinator ≠ [] := by
  intro c hc
  obtain ⟨before, after, rfl⟩ := List.append_of_mem hc
  have hchain := h.apart
  obtain ⟨next, more, hnext⟩ := List.exists_cons_of_ne_nil
    (List.append_ne_nil_of_right_ne_nil after (List.cons_ne_nil first others))
  rw [List.append_assoc, List.cons_append, hnext] at hchain
  exact (List.isChain_cons_cons.mp hchain.right_of_append).1.1

/-- **A compound ends where everything is closed**, if that is so at the end of the selector. -/
theorem Divides.closed {selector : List Char} {roots others : List Compound} {first : Compound}
    (h : Divides selector (roots ++ first :: others)) (hclosed : Closed selector) :
    Closed (Compound.join roots ++ first.text) := by
  by_cases hlast : first.combinator = []
  · -- nothing follows, so that the selector ends there as well
    have hnone : others = [] := by
      cases others with
      | nil => rfl
      | cons next more =>
          have hdivides : Divides selector ((roots ++ [first]) ++ next :: more) := by simpa using h
          exact absurd hlast (hdivides.combinator_ne first (by simp))
    have hjoin := h.join
    rw [hnone, Compound.join_append, Compound.join_cons, hlast, List.append_nil] at hjoin
    rw [← hjoin] at hclosed
    simpa [Compound.join] using hclosed
  · have hroots : ∀ c ∈ roots, c.Sound := fun c hc => h.sound c (List.mem_append_left _ hc)
    rw [Closed, List.foldl_append, Compound.foldl_step_join hroots h.combinator_ne]
    exact (h.sound first (by simp)).closed hlast

/-! ### The selector with the attribute -/

/-- The selector is divided into the compounds for the document, the first one that is not for it and
the others, and the attribute is put in between two parts of the first. -/
structure Scoped (selector hash : String) (roots others : List Compound) (first : Compound)
    (left right : List Char) : Prop where
  parts : compounds selector.toList = roots ++ first :: others
  document : ∀ c ∈ roots, StandsForDocument c.text
  element : ¬ StandsForDocument first.text
  text : first.text = left ++ right
  forms : (scopeSelector selector (scopeText hash)).map String.toList =
    [Compound.join roots ++ (scopeText hash).toList ++ ' ' :: Compound.join (first :: others),
      Compound.join roots ++ (left ++ (scopeText hash).toList ++ right) ++ first.combinator ++
        Compound.join others]

/-- **Where the attribute lands.**  A selector without a complete `:global(…)` is left as it is if all
of it stands for the document.  Else the attribute goes to the place of the first other compound that is
found as plain text, and it lands where it belongs exactly if this place is outside of brackets and
strings and not behind a backslash, and no pseudo-element with a single colon was passed over.  With all
brackets and strings closed and without backslashes, it is enough that no pseudo-element seems to begin
inside of brackets or strings. -/
theorem scopeSelector_lands (selector hash : String) (hglobal : ¬ HoldsGlobal selector.toList) :
    (∀ c ∈ compounds selector.toList, StandsForDocument c.text) ∧
        scopeSelector selector (scopeText hash) = [trim selector] ∨
      ∃ roots others first left right, Scoped selector hash roots others first left right ∧
        AtMark left right ∧
        (Lands (Compound.join roots) left right ↔
          Free (Compound.join roots ++ left) ∧ NoShortBefore (Compound.join roots) left right) ∧
        (Closed (trim selector).toList → '\\' ∉ selector.toList →
          Exposed (Compound.join roots) first.text → NoShortBefore (Compound.join roots) left right →
            Lands (Compound.join roots) left right) := by
  have hdivides := divides_compounds selector.toList
  rcases scopeChars_cases hglobal (scopeText_end hash) with
    ⟨hall, hforms⟩ | ⟨roots, first, others, hparts, hroots, hfirst, hforms⟩
  · left
    refine ⟨hall, ?_⟩
    rw [scopeSelector, hforms, hdivides.join, trim]
    rfl
  · right
    obtain ⟨left, right, htext, hattach, hmark⟩ := exists_atMark first.text (scopeText hash).toList
    rw [hparts] at hdivides
    refine ⟨roots, others, first, left, right, ⟨hparts, hroots, hfirst, htext, ?_⟩, hmark,
      hmark.lands_iff _, ?_⟩
    · rw [hattach] at hforms
      simp [scopeSelector, hforms]
    · intro hclosed hslash hexposed hshort
      have hlist : (trim selector).toList = trimList selector.toList := by simp [trim]
      rw [hlist] at hclosed
      have hend : Free (Compound.join roots ++ first.text) := by
        refine (hdivides.closed hclosed).free fun hmem => hslash (mem_of_mem_trimList ?_)
        rw [← hdivides.join, Compound.join_append, Compound.join_cons]
        rcases List.mem_append.mp hmem with hmem | hmem
        · exact List.mem_append_left _ hmem
        · simp [hmem]
      rw [htext] at hexposed hend
      exact (hmark.lands_iff _).mpr ⟨hmark.free hexposed hend, hshort⟩

/-- A bracket in a string and a function in front of the pseudo-element. -/
theorem scopeSelector_lands_element :
    ¬ HoldsGlobal "a[t=\")\"]:not(.b)::selection".toList ∧
      ∃ left right, Scoped "a[t=\")\"]:not(.b)::selection" "h" [] []
          ⟨"a[t=\")\"]:not(.b)::selection".toList, []⟩ left right ∧ Lands [] left right := by
  have hglobal : ¬ HoldsGlobal "a[t=\")\"]:not(.b)::selection".toList := by
    rw [← hasGlobal_iff]
    decide +kernel
  have hparts : compounds "a[t=\")\"]:not(.b)::selection".toList =
      [⟨"a[t=\")\"]:not(.b)::selection".toList, []⟩] := by
    decide +kernel
  refine ⟨hglobal, ?_⟩
  rcases scopeSelector_lands "a[t=\")\"]:not(.b)::selection" "h" hglobal with
    ⟨-, hforms⟩ | ⟨roots, others, first, left, right, hscoped, -, -, hlands⟩
  · exact absurd hforms (by decide +kernel)
  · have hone := hscoped.parts
    rw [hparts] at hone
    obtain ⟨rfl, rfl, rfl⟩ : roots = [] ∧ first = ⟨"a[t=\")\"]:not(.b)::selection".toList, []⟩ ∧
        others = [] := by
      cases roots with
      | nil => simpa [eq_comm] using hone
      | cons c rest => simp at hone
    refine ⟨left, right, hscoped, hlands (by decide +kernel) (by decide +kernel)
      (by decide +kernel) ?_⟩
    have hnone : ∀ l r, "a[t=\")\"]:not(.b)::selection".toList = l ++ r → ¬ StartsShort r :=
      forall_append_iff.mpr (by decide +kernel)
    intro l r hr _ hshort
    rw [← hscoped.text] at hr
    exact absurd hshort (hnone l r hr)

/-- A double colon in a string is taken for a pseudo-element, and the attribute goes into the string. -/
theorem scopeSelector_lands_inside :
    Closed "a[t=\"::\"]".toList ∧ '\\' ∉ "a[t=\"::\"]".toList ∧
      scopeSelector "a[t=\"::\"]" (scopeText "h") =
        ["[this=\"h\"] a[t=\"::\"]", "a[t=\"[this=\"h\"]::\"]"] ∧
      ∀ left right, left ++ right = "a[t=\"::\"]".toList →
        left ++ (scopeText "h").toList ++ right = "a[t=\"[this=\"h\"]::\"]".toList →
          ¬ Lands [] left right := by
  have hend : Lands [] "a[t=\"::\"]".toList [] := by decide +kernel
  refine ⟨by decide +kernel, by decide +kernel, by decide +kernel, ?_⟩
  intro left right hsplit hform hlands
  obtain rfl := hlands.unique hend (by rw [hsplit, List.append_nil])
  obtain rfl := List.append_right_eq_self.mp hsplit
  exact absurd hform (by decide +kernel)

end Stencil.Style
