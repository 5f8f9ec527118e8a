import Stencil.Proofs.Nesting

/-!
# Pairs of brackets

Brackets are told apart by the places where they stand.  A pair is an opening and a closing bracket
with nested brackets between them (`Partners`).  A `Pairing` writes the pairs of nested brackets down
as they stand inside and beside each other.  If its places are in order, then its pairs are the pairs
of the brackets (`Pairing.mem_pairs_iff`), listed in the order of their opening brackets, and a pair
is a child of another exactly if it stands inside of it and inside of no pair in between
(`Pairing.child_iff`).
-/

namespace Stencil

/-- Where a bracket stands that has nothing but its place written at it. -/
def Bracket.place : Bracket Nat Nat → Nat
  | .opening place => place
  | .closing place => place

namespace Brackets

/-- An opening or a closing bracket at a place. -/
abbrev Mark := Bracket Nat Nat

/-- Each bracket has its partner, and pairs do not cross. -/
abbrev Balanced (bs : List Mark) : Prop := WellNested (fun _ _ => True) bs

/-- The brackets stand behind each other. -/
def Ordered (bs : List Mark) : Prop := bs.Pairwise fun a b => a.place < b.place

/-- Two brackets are partners if what stands between them is balanced. -/
def Partners (bs : List Mark) (start stop : Nat) : Prop :=
  ∃ before inside after, bs = before ++ .opening start :: (inside ++ .closing stop :: after) ∧
    Balanced inside

/-- The second pair of places is inside the first. -/
def Encloses (outer inner : Nat × Nat) : Prop := outer.1 < inner.1 ∧ inner.2 < outer.2

/-- Both are pairs of brackets, and the second one is inside the first with no other around it. -/
def DirectlyInside (bs : List Mark) (outer inner : Nat × Nat) : Prop :=
  Partners bs outer.1 outer.2 ∧ Partners bs inner.1 inner.2 ∧ Encloses outer inner ∧
    ¬ ∃ between : Nat × Nat, Partners bs between.1 between.2 ∧ Encloses outer between ∧
      Encloses between inner

/-- A closing bracket without partner. -/
def LoneClosing (bs : List Mark) (stop : Nat) : Prop :=
  .closing stop ∈ bs ∧ ¬ ∃ start, Partners bs start stop

/-- An opening bracket without partner. -/
def LoneOpening (bs : List Mark) (start : Nat) : Prop :=
  .opening start ∈ bs ∧ ¬ ∃ stop, Partners bs start stop

/-- The bracket to complain about: the first closing one without partner or, if all of them have
theirs, the last opening one without partner. -/
def ToBlame (bs : List Mark) (place : Nat) : Prop :=
  (LoneClosing bs place ∧ ∀ other, LoneClosing bs other → place ≤ other) ∨
    ((∀ other, ¬ LoneClosing bs other) ∧ LoneOpening bs place ∧
      ∀ other, LoneOpening bs other → other ≤ place)

/-- Pairs beside and inside each other: the first one, what is inside it and what is behind it. -/
inductive Pairing where
  | nil
  | cons (start stop : Nat) (inside rest : Pairing)

namespace Pairing

/-- The brackets of the pairs. -/
def marks : Pairing → List Mark
  | .nil => []
  | .cons start stop inside rest =>
      .opening start :: (inside.marks ++ .closing stop :: rest.marks)

/-- All pairs, each before what is inside it. -/
def pairs : Pairing → List (Nat × Nat)
  | .nil => []
  | .cons start stop inside rest => (start, stop) :: (inside.pairs ++ rest.pairs)

/-- The pairs that are inside no other. -/
def roots : Pairing → List (Nat × Nat)
  | .nil => []
  | .cons start stop _ rest => (start, stop) :: rest.roots

/-- The pairs, and behind them those of another pairing. -/
def append : Pairing → Pairing → Pairing
  | .nil, f => f
  | .cons start stop inside rest, f => .cons start stop inside (rest.append f)

/-- The second pair is written down directly inside the first. -/
inductive Child : Pairing → Nat × Nat → Nat × Nat → Prop
  | here {start stop : Nat} {inside rest : Pairing} {inner : Nat × Nat}
      (h : inner ∈ inside.roots) : Child (.cons start stop inside rest) (start, stop) inner
  | inside {start stop : Nat} {inside rest : Pairing} {outer inner : Nat × Nat}
      (h : Child inside outer inner) : Child (.cons start stop inside rest) outer inner
  | rest {start stop : Nat} {inside rest : Pairing} {outer inner : Nat × Nat}
      (h : Child rest outer inner) : Child (.cons start stop inside rest) outer inner

/-- The marks of two pairings joined are those of both. -/
@[simp] theorem marks_append (f g : Pairing) : (f.append g).marks = f.marks ++ g.marks := by
  induction f with
  | nil => rfl
  | cons start stop inside rest _ ih => simp [append, marks, ih]

/-- The brackets of pairs are balanced. -/
theorem balanced_marks (f : Pairing) : Balanced f.marks := by
  induction f with
  | nil => exact .nil
  | cons start stop inside rest ihInside ihRest => exact .pair ihInside trivial ihRest

end Pairing

/-! ### Partners -/

variable {bs front back : List Mark} {start stop : Nat}

/-- Partners are partners with marks in front. -/
theorem Partners.append_left (h : Partners bs start stop) (front : List Mark) :
    Partners (front ++ bs) start stop := by
  obtain ⟨before, inside, after, rfl, hinside⟩ := h
  exact ⟨front ++ before, inside, after, by simp, hinside⟩

/-- Partners are partners with marks behind. -/
theorem Partners.append_right (h : Partners bs start stop) (back : List Mark) :
    Partners (bs ++ back) start stop := by
  obtain ⟨before, inside, after, rfl, hinside⟩ := h
  exact ⟨before, inside, after ++ back, by simp, hinside⟩

/-- What stands around a pair is of no matter to the brackets inside it. -/
theorem Partners.pair {inside rest : List Mark} {a b : Nat}
    (h : Partners inside start stop ∨ Partners rest start stop) :
    Partners (.opening a :: (inside ++ .closing b :: rest)) start stop := by
  rcases h with h | h
  · exact (h.append_right (.closing b :: rest)).append_left [.opening a]
  · exact ((h.append_left [.closing b]).append_left inside).append_left [.opening a]

/-- Every closing bracket among balanced ones has a partner. -/
theorem WellNested.exists_start (h : Balanced bs) (hstop : .closing stop ∈ bs) :
    ∃ start, Partners bs start stop := by
  induction h with
  | nil => simp at hstop
  | @pair a b inside rest hinside _ _ ihInside ihRest =>
      simp only [List.mem_cons, List.mem_append, reduceCtorEq, Bracket.closing.injEq,
        false_or] at hstop
      rcases hstop with hmem | rfl | hmem
      · obtain ⟨start, hstart⟩ := ihInside hmem
        exact ⟨start, .pair (.inl hstart)⟩
      · exact ⟨a, [], inside, rest, rfl, hinside⟩
      · obtain ⟨start, hstart⟩ := ihRest hmem
        exact ⟨start, .pair (.inr hstart)⟩

/-- Every opening bracket among balanced ones has a partner. -/
theorem WellNested.exists_stop (h : Balanced bs) (hstart : .opening start ∈ bs) :
    ∃ stop, Partners bs start stop := by
  induction h with
  | nil => simp at hstart
  | @pair a b inside rest hinside _ _ ihInside ihRest =>
      simp only [List.mem_cons, List.mem_append, reduceCtorEq, Bracket.opening.injEq,
        false_or] at hstart
      rcases hstart with rfl | hmem | hmem
      · exact ⟨b, [], inside, rest, rfl, hinside⟩
      · obtain ⟨stop, hstop⟩ := ihInside hmem
        exact ⟨stop, .pair (.inl hstop)⟩
      · obtain ⟨stop, hstop⟩ := ihRest hmem
        exact ⟨stop, .pair (.inr hstop)⟩

/-- A bracket stands only once among brackets in order. -/
theorem Ordered.split_unique {m : Mark} {before before' after after' : List Mark}
    (h : Ordered (before ++ m :: after)) (heq : before ++ m :: after = before' ++ m :: after') :
    before = before' ∧ after = after' := by
  have hother : ∀ {front back : List Mark}, Ordered (front ++ m :: back) → m ∉ front ∧ m ∉ back := by
    intro front back hordered
    rw [Ordered, List.pairwise_append, List.pairwise_cons] at hordered
    obtain ⟨-, ⟨hback, -⟩, hfront⟩ := hordered
    refine ⟨fun hmem => ?_, fun hmem => ?_⟩
    · exact Nat.lt_irrefl _ (hfront m hmem m List.mem_cons_self)
    · exact Nat.lt_irrefl _ (hback m hmem)
  obtain ⟨hbefore, hafter⟩ := hother h
  obtain ⟨hbefore', -⟩ := hother (heq ▸ h)
  rcases List.append_eq_append_iff.mp heq with ⟨more, rfl, hmore⟩ | ⟨more, rfl, hmore⟩
  · cases more with
    | nil => simpa using hmore
    | cons next more => grind
  · cases more with
    | nil => simpa [eq_comm] using hmore
    | cons next more => grind

/-- Where brackets are in order, an opening one has no other partner. -/
theorem Partners.unique (h : Ordered bs) {stop' : Nat} (hp : Partners bs start stop)
    (hp' : Partners bs start stop') : stop = stop' := by
  obtain ⟨before, inside, after, rfl, hinside⟩ := hp
  obtain ⟨before', inside', after', heq, hinside'⟩ := hp'
  exact (hinside.inside_unique hinside' (h.split_unique heq).2).2.1

/-! ### Brackets without partner -/

/-- Where a mark is to blame, the braces are not balanced. -/
theorem ToBlame.not_balanced {place : Nat} (h : ToBlame bs place) : ¬ Balanced bs := by
  intro hbalanced
  rcases h with ⟨⟨hmem, hlone⟩, -⟩ | ⟨-, ⟨hmem, hlone⟩, -⟩
  · exact hlone (hbalanced.exists_start hmem)
  · exact hlone (hbalanced.exists_stop hmem)

/-- Behind balanced brackets, a closing one is to blame. -/
theorem toBlame_closing {place : Nat} {after : List Mark} (hfront : Balanced front)
    (h : Ordered (front ++ .closing place :: after)) :
    ToBlame (front ++ .closing place :: after) place := by
  refine .inl ⟨⟨by simp, ?_⟩, ?_⟩
  · rintro ⟨start, before, inside, rest, heq, hinside⟩
    rw [← List.cons_append, ← List.append_assoc] at heq
    obtain ⟨rfl, -⟩ := h.split_unique heq
    exact hfront.not_open hinside
  · rintro other ⟨hmem, hlone⟩
    rcases List.mem_append.mp hmem with hmem | hmem
    · obtain ⟨start, hstart⟩ := hfront.exists_start hmem
      exact (hlone ⟨start, hstart.append_right _⟩).elim
    · rcases List.mem_cons.mp hmem with heq | hmem
      · exact Nat.le_of_eq (Bracket.closing.inj heq).symm
      · exact Nat.le_of_lt ((List.pairwise_cons.mp (List.pairwise_append.mp h).2.1).1 _ hmem)

/-- In front of balanced brackets with which the text ends, an opening one is to blame if all closing
ones before have their partner. -/
theorem toBlame_opening {place : Nat} {inside : List Mark} (hinside : Balanced inside)
    (hfront : ∀ stop, .closing stop ∈ front → ∃ start, Partners front start stop)
    (h : Ordered (front ++ .opening place :: inside)) :
    ToBlame (front ++ .opening place :: inside) place := by
  have hwithin : ∀ {start stop}, Partners inside start stop →
      Partners (front ++ .opening place :: inside) start stop :=
    fun hp => (hp.append_left [.opening place]).append_left front
  refine .inr ⟨?_, ⟨by simp, ?_⟩, ?_⟩
  · rintro other ⟨hmem, hlone⟩
    rcases List.mem_append.mp hmem with hmem | hmem
    · obtain ⟨start, hstart⟩ := hfront other hmem
      exact hlone ⟨start, hstart.append_right _⟩
    · rcases List.mem_cons.mp hmem with heq | hmem
      · cases heq
      · obtain ⟨start, hstart⟩ := hinside.exists_start hmem
        exact hlone ⟨start, hwithin hstart⟩
  · rintro ⟨stop, before, inner, after, heq, hinner⟩
    obtain ⟨-, rfl⟩ := h.split_unique heq
    exact hinner.not_closing hinside
  · rintro other ⟨hmem, hlone⟩
    rcases List.mem_append.mp hmem with hmem | hmem
    · exact Nat.le_of_lt ((List.pairwise_append.mp h).2.2 _ hmem _ List.mem_cons_self)
    · rcases List.mem_cons.mp hmem with heq | hmem
      · exact Nat.le_of_eq (Bracket.opening.inj heq)
      · obtain ⟨stop, hstop⟩ := hinside.exists_stop hmem
        exact (hlone ⟨stop, hwithin hstop⟩).elim

namespace Pairing

variable {f : Pairing} {p q : Nat × Nat}

/-- Each pair of a pairing is one of partners. -/
theorem partners_of_mem (h : p ∈ f.pairs) : Partners f.marks p.1 p.2 := by
  induction f with
  | nil => simp [pairs] at h
  | cons start stop inside rest ihInside ihRest =>
      simp only [pairs, List.mem_cons, List.mem_append] at h
      rcases h with rfl | h | h
      · exact ⟨[], inside.marks, rest.marks, rfl, inside.balanced_marks⟩
      · exact .pair (.inl (ihInside h))
      · exact .pair (.inr (ihRest h))

/-- Each opening has its pair. -/
theorem exists_mem_pairs (h : .opening start ∈ f.marks) : ∃ stop, (start, stop) ∈ f.pairs := by
  induction f with
  | nil => simp [marks] at h
  | cons first last inside rest ihInside ihRest =>
      simp only [marks, List.mem_cons, List.mem_append, reduceCtorEq, Bracket.opening.injEq,
        false_or] at h
      rcases h with rfl | h | h
      · exact ⟨last, List.mem_cons_self⟩
      · obtain ⟨stop, hstop⟩ := ihInside h
        exact ⟨stop, by simp [pairs, hstop]⟩
      · obtain ⟨stop, hstop⟩ := ihRest h
        exact ⟨stop, by simp [pairs, hstop]⟩

/-- **The pairs that are written down are the pairs of the brackets.** -/
theorem mem_pairs_iff (h : Ordered f.marks) : p ∈ f.pairs ↔ Partners f.marks p.1 p.2 := by
  refine ⟨partners_of_mem, fun hp => ?_⟩
  have hstart : .opening p.1 ∈ f.marks := by
    obtain ⟨before, inside, after, heq, -⟩ := hp
    simp [heq]
  obtain ⟨stop, hmem⟩ := exists_mem_pairs hstart
  have hstop := (partners_of_mem hmem).unique h hp
  simp only at hstop
  rwa [hstop] at hmem

/-- Each pair has its marks. -/
theorem places_of_mem (h : p ∈ f.pairs) : .opening p.1 ∈ f.marks ∧ .closing p.2 ∈ f.marks := by
  obtain ⟨before, inside, after, heq, -⟩ := partners_of_mem h
  simp [heq]

/-- The pairs are listed in the order of their opening brackets. -/
theorem pairwise_pairs (h : Ordered f.marks) : f.pairs.Pairwise fun p q => p.1 < q.1 := by
  induction f with
  | nil => exact .nil
  | cons start stop inside rest ihInside ihRest =>
      obtain ⟨hstart, hall⟩ := List.pairwise_cons.mp h
      obtain ⟨hinside, hrest, hacross⟩ := List.pairwise_append.mp hall
      refine List.pairwise_cons.mpr ⟨?_, List.pairwise_append.mpr
        ⟨ihInside hinside, ihRest (List.pairwise_cons.mp hrest).2, ?_⟩⟩
      · intro p hp
        rcases List.mem_append.mp hp with hp | hp
        · exact hstart _ (List.mem_append_left _ (places_of_mem hp).1)
        · exact hstart _ (List.mem_append_right _ (List.mem_cons_of_mem _ (places_of_mem hp).1))
      · intro p hp q hq
        exact hacross _ (places_of_mem hp).1 _ (List.mem_cons_of_mem _ (places_of_mem hq).1)

/-! ### What is inside what -/

/-- What order says of the first pair, of those inside it and of those behind it. -/
theorem bounds_of_ordered {inside rest : Pairing} (h : Ordered (cons start stop inside rest).marks) :
    start < stop ∧ (∀ p ∈ inside.pairs, start < p.1 ∧ p.2 < stop) ∧
      (∀ p ∈ rest.pairs, stop < p.1) ∧ Ordered inside.marks ∧ Ordered rest.marks := by
  obtain ⟨hstart, hall⟩ := List.pairwise_cons.mp h
  obtain ⟨hinside, hrest, hacross⟩ := List.pairwise_append.mp hall
  obtain ⟨hstop, hrest⟩ := List.pairwise_cons.mp hrest
  refine ⟨hstart (.closing stop) (by simp), ?_, ?_, hinside, hrest⟩
  · intro p hp
    exact ⟨hstart _ (List.mem_append_left _ (places_of_mem hp).1),
      hacross _ (places_of_mem hp).2 (.closing stop) List.mem_cons_self⟩
  · intro p hp
    exact hstop _ (places_of_mem hp).1

/-- In a pair the opening comes first. -/
theorem lt_of_mem (h : Ordered f.marks) (hp : p ∈ f.pairs) : p.1 < p.2 := by
  induction f with
  | nil => simp [pairs] at hp
  | cons start stop inside rest ihInside ihRest =>
      obtain ⟨hlt, -, -, hinside, hrest⟩ := bounds_of_ordered h
      simp only [pairs, List.mem_cons, List.mem_append] at hp
      rcases hp with rfl | hp | hp
      · exact hlt
      · exact ihInside hinside hp
      · exact ihRest hrest hp

/-- The outermost pairs are pairs. -/
theorem mem_pairs_of_mem_roots (h : p ∈ f.roots) : p ∈ f.pairs := by
  induction f with
  | nil => simp [roots] at h
  | cons start stop inside rest _ ihRest =>
      rcases List.mem_cons.mp h with rfl | h
      · exact List.mem_cons_self
      · exact List.mem_cons_of_mem _ (List.mem_append_right _ (ihRest h))

/-- No pair is around the first one.  Around a pair inside the first one are only that one and others
inside it, and around a pair behind it only others behind it. -/
theorem enclosing_cons {inside rest : Pairing} (h : Ordered (cons start stop inside rest).marks)
    (hq : q ∈ (cons start stop inside rest).pairs) (hencloses : Encloses q p) :
    p ≠ (start, stop) ∧ (p ∈ inside.pairs → q = (start, stop) ∨ q ∈ inside.pairs) ∧
      (p ∈ rest.pairs → q ∈ rest.pairs) := by
  obtain ⟨hlt, hinside, hbehind, hinner, hrest⟩ := bounds_of_ordered h
  obtain ⟨hbefore, hafter⟩ := hencloses
  simp only [pairs, List.mem_cons, List.mem_append] at hq
  refine ⟨?_, fun hp => ?_, fun hp => ?_⟩
  · rintro rfl
    rcases hq with rfl | hq | hq
    · exact Nat.lt_irrefl _ hbefore
    · exact Nat.lt_asymm hbefore (hinside q hq).1
    · exact Nat.lt_asymm (Nat.lt_trans hbefore hlt) (hbehind q hq)
  · rcases hq with hq | hq | hq
    · exact .inl hq
    · exact .inr hq
    · have hstop := hbehind q hq
      have hpos := lt_of_mem hinner hp
      have hend := (hinside p hp).2
      omega
  · have hstop := hbehind p hp
    have hpos := lt_of_mem hrest hp
    rcases hq with rfl | hq | hq
    · simp only at hafter
      omega
    · have hend := (hinside q hq).2
      omega
    · exact hq

/-- A pair is inside no other exactly if it is a root. -/
theorem mem_roots_iff (h : Ordered f.marks) (hp : p ∈ f.pairs) :
    p ∈ f.roots ↔ ¬ ∃ q ∈ f.pairs, Encloses q p := by
  induction f with
  | nil => simp [pairs] at hp
  | cons start stop inside rest _ ihRest =>
      obtain ⟨hlt, hinside, hbehind, -, hrest⟩ := bounds_of_ordered h
      simp only [pairs, List.mem_cons, List.mem_append] at hp
      rcases hp with rfl | hp | hp
      · refine iff_of_true List.mem_cons_self ?_
        rintro ⟨q, hq, hencloses⟩
        exact (enclosing_cons h hq hencloses).1 rfl
      · refine iff_of_false ?_ (not_not_intro ⟨(start, stop), List.mem_cons_self, hinside p hp⟩)
        obtain ⟨hfirst, -, hbeside⟩ := enclosing_cons h List.mem_cons_self (hinside p hp)
        intro hroot
        rcases List.mem_cons.mp hroot with hroot | hroot
        · exact hfirst hroot
        · exact Nat.lt_asymm hlt (hbehind _ (hbeside (mem_pairs_of_mem_roots hroot)))
      · have hfirst : p ≠ (start, stop) := by
          rintro rfl
          exact Nat.lt_asymm hlt (hbehind _ hp)
        rw [roots, List.mem_cons, or_iff_right hfirst, ihRest hrest hp]
        refine not_congr ⟨?_, ?_⟩
        · rintro ⟨q, hq, hencloses⟩
          exact ⟨q, by simp [pairs, hq], hencloses⟩
        · rintro ⟨q, hq, hencloses⟩
          exact ⟨q, (enclosing_cons h hq hencloses).2.2 hp, hencloses⟩

/-- **Children.**  A pair is written down directly inside another exactly if it stands inside that one
and inside of no pair in between. -/
theorem child_iff (h : Ordered f.marks) : f.Child q p ↔ q ∈ f.pairs ∧ p ∈ f.pairs ∧ Encloses q p ∧
    ¬ ∃ r ∈ f.pairs, Encloses q r ∧ Encloses r p := by
  induction f with
  | nil =>
      refine iff_of_false (fun hchild => by cases hchild) ?_
      rintro ⟨hq, -⟩
      simp [pairs] at hq
  | cons start stop inside rest ihInside ihRest =>
      obtain ⟨-, hinside, -, hinner, hrest⟩ := bounds_of_ordered h
      have hmem : ∀ {r}, r ∈ (cons start stop inside rest).pairs ↔
          r = (start, stop) ∨ r ∈ inside.pairs ∨ r ∈ rest.pairs := by
        intro r
        simp [pairs]
      constructor
      · intro hchild
        cases hchild with
        | here hroot =>
            have hp := mem_pairs_of_mem_roots hroot
            refine ⟨List.mem_cons_self, hmem.mpr (.inr (.inl hp)), hinside p hp, ?_⟩
            rintro ⟨r, hr, houter, hwithin⟩
            rcases (enclosing_cons h hr hwithin).2.1 hp with rfl | hr
            · exact Nat.lt_irrefl _ houter.1
            · exact (mem_roots_iff hinner hp).mp hroot ⟨r, hr, hwithin⟩
        | inside hchild =>
            obtain ⟨hq, hp, hencloses, hnone⟩ := (ihInside hinner).mp hchild
            have hq' := hmem.mpr (.inr (.inl hq))
            refine ⟨hq', hmem.mpr (.inr (.inl hp)), hencloses, ?_⟩
            rintro ⟨r, hr, houter, hwithin⟩
            have hfirst := (enclosing_cons h hq' houter).1
            exact hnone ⟨r, ((enclosing_cons h hr hwithin).2.1 hp).resolve_left hfirst, houter, hwithin⟩
        | rest hchild =>
            obtain ⟨hq, hp, hencloses, hnone⟩ := (ihRest hrest).mp hchild
            refine ⟨hmem.mpr (.inr (.inr hq)), hmem.mpr (.inr (.inr hp)), hencloses, ?_⟩
            rintro ⟨r, hr, houter, hwithin⟩
            exact hnone ⟨r, (enclosing_cons h hr hwithin).2.2 hp, houter, hwithin⟩
      · rintro ⟨hq, hp, hencloses, hnone⟩
        obtain ⟨hfirst, haround, hbeside⟩ := enclosing_cons h hq hencloses
        rcases hmem.mp hp with hp | hp | hp
        · exact absurd hp hfirst
        · rcases haround hp with rfl | hq
          · refine .here ((mem_roots_iff hinner hp).mpr ?_)
            rintro ⟨r, hr, hbetween⟩
            exact hnone ⟨r, hmem.mpr (.inr (.inl hr)), hinside r hr, hbetween⟩
          · refine .inside ((ihInside hinner).mpr ⟨hq, hp, hencloses, ?_⟩)
            rintro ⟨r, hr, hbetween⟩
            exact hnone ⟨r, hmem.mpr (.inr (.inl hr)), hbetween⟩
        · refine .rest ((ihRest hrest).mpr ⟨hbeside hp, hp, hencloses, ?_⟩)
          rintro ⟨r, hr, hbetween⟩
          exact hnone ⟨r, hmem.mpr (.inr (.inr hr)), hbetween⟩

/-- Children are the pairs directly inside. -/
theorem child_iff_directlyInside (h : Ordered f.marks) :
    f.Child q p ↔ DirectlyInside f.marks q p := by
  rw [child_iff h, DirectlyInside, mem_pairs_iff h, mem_pairs_iff h]
  simp only [mem_pairs_iff h]

end Pairing

end Brackets

end Stencil
