import Mathlib.Data.List.Basic

/-!
# Nested brackets

Brackets are nested if each of them has its partner and no two pairs cross (`WellNested`).  Whoever
reads brackets from left to right with a stack of the open ones finds out the same: each closing
bracket fits the innermost open one, and nothing is open in the end (`settles_iff_wellNested`).

A bracket has one partner at most, because the inside of a pair is known from where it starts
(`WellNested.inside_unique`): no front of nested brackets closes more than it opens
(`WellNested.countP_closing_le`).
-/

namespace Stencil

/-- An opening or a closing bracket, with what is written at it. -/
inductive Bracket (α β : Type) where
  | opening (a : α)
  | closing (b : β)
  deriving DecidableEq, Repr

/-- Whether the bracket is an opening one. -/
def Bracket.isOpening {α β : Type} : Bracket α β → Bool
  | .opening _ => true
  | .closing _ => false

/-- Whether the bracket is a closing one. -/
def Bracket.isClosing {α β : Type} : Bracket α β → Bool
  | .opening _ => false
  | .closing _ => true

namespace Brackets

variable {α β : Type} {fits : α → β → Prop}

/-- Each bracket has a partner that fits it, and pairs do not cross. -/
inductive WellNested (fits : α → β → Prop) : List (Bracket α β) → Prop
  | nil : WellNested fits []
  | pair {a : α} {b : β} {inside rest : List (Bracket α β)} (hinside : WellNested fits inside)
      (hfits : fits a b) (hrest : WellNested fits rest) :
      WellNested fits (.opening a :: (inside ++ .closing b :: rest))

/-- The brackets close all that is open, the innermost first, and all that they open themselves. -/
inductive Settles (fits : α → β → Prop) : List α → List (Bracket α β) → Prop
  | nil : Settles fits [] []
  | opening {a : α} {stack : List α} {rest : List (Bracket α β)}
      (h : Settles fits (a :: stack) rest) : Settles fits stack (.opening a :: rest)
  | closing {a : α} {b : β} {stack : List α} {rest : List (Bracket α β)} (hfits : fits a b)
      (h : Settles fits stack rest) : Settles fits (a :: stack) (.closing b :: rest)

theorem settles_nil {stack : List α} : Settles fits stack [] ↔ stack = [] := by
  constructor
  · intro h
    cases h
    rfl
  · rintro rfl
    exact .nil

theorem settles_opening {a : α} {stack : List α} {rest : List (Bracket α β)} :
    Settles fits stack (.opening a :: rest) ↔ Settles fits (a :: stack) rest := by
  constructor
  · intro h
    cases h with
    | opening h => exact h
  · exact .opening

theorem settles_closing {b : β} {stack : List α} {rest : List (Bracket α β)} :
    Settles fits stack (.closing b :: rest) ↔
      ∃ a outer, stack = a :: outer ∧ fits a b ∧ Settles fits outer rest := by
  constructor
  · intro h
    cases h with
    | closing hfits h => exact ⟨_, _, rfl, hfits, h⟩
  · rintro ⟨a, outer, rfl, hfits, h⟩
    exact .closing hfits h

/-- Nested brackets leave the stack as it is. -/
theorem WellNested.settles {front : List (Bracket α β)} (h : WellNested fits front) {stack : List α}
    {rest : List (Bracket α β)} (hrest : Settles fits stack rest) :
    Settles fits stack (front ++ rest) := by
  induction h generalizing stack rest with
  | nil => exact hrest
  | pair _ hfits _ ihInside ihRest =>
      rw [List.cons_append, List.append_assoc, List.cons_append]
      exact .opening (ihInside (.closing hfits (ihRest hrest)))

/-- The brackets are nested but for the closing ones that what is open needs. -/
def Settled (fits : α → β → Prop) : List α → List (Bracket α β) → Prop
  | [], bs => WellNested fits bs
  | a :: stack, bs => ∃ inside b rest, bs = inside ++ .closing b :: rest ∧ WellNested fits inside ∧
      fits a b ∧ Settled fits stack rest

/-- A pair in front does no harm. -/
theorem Settled.pair {a : α} {b : β} {inside rest : List (Bracket α β)} {stack : List α}
    (hinside : WellNested fits inside) (hfits : fits a b) (h : Settled fits stack rest) :
    Settled fits stack (.opening a :: (inside ++ .closing b :: rest)) := by
  cases stack with
  | nil => exact WellNested.pair hinside hfits h
  | cons outer stack =>
      obtain ⟨front, last, back, rfl, hfront, hlast, hback⟩ := h
      refine ⟨.opening a :: (inside ++ .closing b :: front), last, back, ?_, ?_, hlast, hback⟩
      · simp
      · exact WellNested.pair hinside hfits hfront

theorem Settles.settled {stack : List α} {bs : List (Bracket α β)} (h : Settles fits stack bs) :
    Settled fits stack bs := by
  induction h with
  | nil => exact .nil
  | opening _ ih =>
      obtain ⟨inside, b, rest, rfl, hinside, hfits, hrest⟩ := ih
      exact Settled.pair hinside hfits hrest
  | closing hfits _ ih => exact ⟨[], _, _, rfl, .nil, hfits, ih⟩

/-- **What a stack finds out.**  Reading with a stack accepts nested brackets and no others. -/
theorem settles_iff_wellNested {bs : List (Bracket α β)} : Settles fits [] bs ↔ WellNested fits bs := by
  constructor
  · exact Settles.settled
  · intro h
    rw [← List.append_nil bs]
    exact h.settles .nil

/-! ### Opening and closing brackets in number -/

/-- In nested brackets as many are closed as are opened. -/
theorem WellNested.countP_closing {bs : List (Bracket α β)} (h : WellNested fits bs) :
    bs.countP Bracket.isClosing = bs.countP Bracket.isOpening := by
  induction h with
  | nil => rfl
  | pair _ _ _ ihInside ihRest =>
      simp only [List.countP_cons, List.countP_append, Bracket.isClosing, Bracket.isOpening]
      grind

/-- No front of nested brackets closes more than it opens. -/
theorem WellNested.countP_closing_le {bs : List (Bracket α β)} (h : WellNested fits bs) :
    ∀ front back, bs = front ++ back →
      front.countP Bracket.isClosing ≤ front.countP Bracket.isOpening := by
  induction h with
  | nil =>
      intro front back heq
      obtain ⟨rfl, -⟩ := List.append_eq_nil_iff.mp heq.symm
      exact Nat.le_refl _
  | @pair a b inside rest hinside _ _ ihInside ihRest =>
      intro front back heq
      cases front with
      | nil => exact Nat.le_refl _
      | cons first front =>
          obtain ⟨rfl, htail⟩ := List.cons.inj heq
          simp only [List.countP_cons, Bracket.isClosing, Bracket.isOpening]
          -- the front ends inside the pair or behind it
          rcases List.append_eq_append_iff.mp htail with ⟨more, rfl, hmore⟩ | ⟨more, rfl, -⟩
          · have hcount := hinside.countP_closing
            cases more with
            | nil =>
                rw [List.append_nil]
                grind
            | cons next more =>
                obtain ⟨rfl, rfl⟩ := List.cons.inj hmore
                have hrest := ihRest more back rfl
                simp only [List.countP_append, List.countP_cons, Bracket.isClosing,
                  Bracket.isOpening]
                grind
          · have hinner := ihInside front more rfl
            grind

/-- Behind a front that stays open, nested brackets do not end what they are part of. -/
theorem WellNested.not_open {before inside : List (Bracket α β)} {a : α}
    (h : WellNested fits (before ++ .opening a :: inside)) (hinside : WellNested fits inside) :
    False := by
  have hfront := h.countP_closing_le before _ rfl
  have hall := h.countP_closing
  have hcount := hinside.countP_closing
  simp only [List.countP_append, List.countP_cons, Bracket.isClosing, Bracket.isOpening] at hall
  grind

/-- Nested brackets do not go on with a closing one inside of other nested brackets. -/
theorem WellNested.not_closing {inside more : List (Bracket α β)} {b : β} (h : WellNested fits inside)
    (hmore : WellNested fits (inside ++ .closing b :: more)) : False := by
  have hfront := hmore.countP_closing_le (inside ++ [.closing b]) more (by simp)
  have hcount := h.countP_closing
  simp only [List.countP_append, List.countP_cons, Bracket.isClosing, Bracket.isOpening] at hfront
  grind

/-- **Where a pair is closed** is known from where it is opened. -/
theorem WellNested.inside_unique {inside inside' after after' : List (Bracket α β)} {b b' : β}
    (h : WellNested fits inside) (h' : WellNested fits inside')
    (heq : inside ++ .closing b :: after = inside' ++ .closing b' :: after') :
    inside = inside' ∧ b = b' ∧ after = after' := by
  rcases List.append_eq_append_iff.mp heq with ⟨more, rfl, hmore⟩ | ⟨more, rfl, hmore⟩
  · cases more with
    | nil => simpa using hmore
    | cons next more =>
        obtain ⟨rfl, -⟩ := List.cons.inj hmore
        exact (h.not_closing h').elim
  · cases more with
    | nil => simpa [eq_comm] using hmore
    | cons next more =>
        obtain ⟨rfl, -⟩ := List.cons.inj hmore
        exact (h'.not_closing h).elim

end Brackets

end Stencil
