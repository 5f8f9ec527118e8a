import Stencil.Style.Selector
import Stencil.Style.Sheet
import Stencil.Text.Offset

/-!
# Reading stylesheets

Comments are dropped first.  Then the pairs of braces outside strings are found in one pass and
sorted by the opening brace (`bracePairs`).  A block is what stands between such a pair; what stands
before its opening brace, after the last semicolon, is its header, and all other text of the body
around it belongs to that body's declarations.  The pairs directly inside a body are found again by
their offsets (`readBlock`).
-/

namespace Stencil.Style

open Stencil.Text

/-- The text without its complete comments. -/
def dropComments (cs : List Char) : List Char :=
  match h : breakOn ['/', '*'] cs with
  | none => cs
  | some (before, after) =>
      match h' : breakOn ['*', '/'] after with
      | none => cs
      | some (_, rest) =>
          have : rest.length < cs.length := length_lt_of_breakOn_breakOn (by decide) h h'
          before ++ dropComments rest
termination_by cs.length

/-- An at-rule's name and what follows it; the `@` is not part of the name. -/
def splitAtRule (header : List Char) : String × String :=
  let body := header.drop 1
  let inName (c : Char) : Bool := !(isBlank c || c == '(')
  (String.ofList (body.takeWhile inName), String.ofList (trimList (body.dropWhile inName)))

/-- The block with the given header, which has no blanks around it. -/
def blockOf (header declarations : List Char) (children : List Block) : Block :=
  if header.head? == some '@' then
    let (name, params) := splitAtRule header
    .atRule name params (String.ofList declarations) children true
  else .rule (splitSelectors (String.ofList header)) (String.ofList declarations) children

/-- The text up to its last semicolon, and what follows it. -/
def splitLast (cs : List Char) : List Char × List Char :=
  let after := (cs.reverse.takeWhile (· != ';')).reverse
  (cs.take (cs.length - after.length), after)

/-- Whether the text is inside a string, and whether the next character is escaped there. -/
inductive Quoting where
  | none
  | inside (mark : Char)
  | escaped (mark : Char)

/-- The quoting after a character. -/
def Quoting.step (q : Quoting) (c : Char) : Quoting :=
  match q with
  | .none => if c == '"' || c == '\'' then .inside c else .none
  | .inside mark =>
      if c == '\\' then .escaped mark else if c == mark then .none else .inside mark
  | .escaped mark => .inside mark

/-- The pairs of braces outside strings, each when its closing brace is met, after those met so far.
The stack has the offsets of the opening braces that have no partner yet. -/
def pairBraces (offset : Nat) (q : Quoting) (stack : List Nat) (pairs : List (Nat × Nat)) :
    List Char → Except Fault (List (Nat × Nat))
  | [] =>
      match stack with
      | [] => .ok pairs
      | opening :: _ => .error (.unbalanced opening)
  | c :: rest =>
      let next := offset + c.utf8Size
      match q with
      | .none =>
          if c == '\x7b' then pairBraces next .none (offset :: stack) pairs rest
          else if c == '\x7d' then
            match stack with
            | [] => .error (.unbalanced offset)
            | opening :: stack => pairBraces next .none stack (pairs ++ [(opening, offset)]) rest
          else pairBraces next (q.step c) stack pairs rest
      | _ => pairBraces next (q.step c) stack pairs rest

/-- Every pair is opened before it is closed, as the opening braces on the stack are behind. -/
theorem ordered_of_pairBraces {offset : Nat} {q : Quoting} {stack : List Nat} {cs : List Char}
    {pairs all : List (Nat × Nat)} (h : pairBraces offset q stack pairs cs = .ok all)
    (hstack : ∀ opening ∈ stack, opening < offset) (hpairs : ∀ p ∈ pairs, p.1 < p.2) :
    ∀ p ∈ all, p.1 < p.2 := by
  induction cs generalizing offset q stack pairs with
  | nil =>
      cases stack with
      | nil =>
          cases h
          exact hpairs
      | cons opening stack => cases h
  | cons c rest ih =>
      have hsize := c.utf8Size_pos
      have hlater : ∀ opening ∈ stack, opening < offset + c.utf8Size := fun opening ho =>
        Nat.lt_of_lt_of_le (hstack opening ho) (Nat.le_add_right ..)
      have hquoted : pairBraces (offset + c.utf8Size) (q.step c) stack pairs rest = .ok all →
          ∀ p ∈ all, p.1 < p.2 := fun h => ih h hlater hpairs
      simp only [pairBraces] at h
      split at h
      · split at h
        · refine ih h (List.forall_mem_cons.mpr ⟨by omega, hlater⟩) hpairs
        · split at h
          · split at h
            · cases h
            · next opening stack =>
              obtain ⟨ho, hstack⟩ := List.forall_mem_cons.mp hstack
              refine ih h (List.forall_mem_cons.mp hlater).2 ?_
              simpa only [List.forall_mem_append, List.forall_mem_singleton] using ⟨hpairs, ho⟩
          · exact hquoted h
      · exact hquoted h

/-- The order of the pairs: by the opening brace, and then by the closing one. -/
def pairBefore (p q : Nat × Nat) : Bool := p.1 < q.1 || (p.1 == q.1 && p.2 ≤ q.2)

/-- Pairs of braces, each opened before it is closed. -/
structure Braces where
  pairs : List (Nat × Nat)
  ordered : ∀ p ∈ pairs, p.1 < p.2

/-- The pairs of braces of a text, sorted. -/
def bracePairs (cs : List Char) : Except Fault Braces :=
  match h : pairBraces 0 .none [] [] cs with
  | .ok pairs => .ok ⟨pairs.mergeSort pairBefore, fun p hp =>
      ordered_of_pairBraces h (by simp) (by simp) p (List.mem_mergeSort.mp hp)⟩
  | .error f => .error f

/-- The first pair that is opened at the cursor or behind it, found by its partition point, if it is
opened before the bound. -/
def Braces.next? (b : Braces) (cursor stop : Nat) : Option (Nat × Nat) :=
  (b.pairs[(b.pairs.takeWhile (·.1 < cursor)).length]?).filter (·.1 < stop)

theorem getElem?_length_takeWhile {α : Type} (p : α → Bool) (xs : List α) :
    xs[(xs.takeWhile p).length]? = (xs.dropWhile p).head? := by
  induction xs with
  | nil => rfl
  | cons x rest ih => cases hx : p x <;> simp [hx, ih]

theorem Braces.mem_of_next? {b : Braces} {cursor stop : Nat} {p : Nat × Nat}
    (h : b.next? cursor stop = some p) : p ∈ b.pairs ∧ cursor ≤ p.1 ∧ p.1 < stop := by
  obtain ⟨hget, hstop⟩ := Option.filter_eq_some_iff.mp h
  have hfirst := List.head?_dropWhile_not (fun q : Nat × Nat => decide (q.1 < cursor)) b.pairs
  rw [← getElem?_length_takeWhile, hget] at hfirst
  exact ⟨List.mem_of_getElem? hget, by simpa using hfirst, by simpa using hstop⟩

theorem countP_opening_lt {pairs : List (Nat × Nat)} {p : Nat × Nat} {cursor next : Nat}
    (hp : p ∈ pairs) (hcursor : cursor ≤ p.1) (hnext : p.1 < next) :
    pairs.countP (next ≤ ·.1) < pairs.countP (cursor ≤ ·.1) := by
  have hmono : ∀ pairs : List (Nat × Nat),
      pairs.countP (next ≤ ·.1) ≤ pairs.countP (cursor ≤ ·.1) := fun pairs =>
    List.countP_mono_left fun q _ hq => by simp at hq ⊢; omega
  induction pairs with
  | nil => cases hp
  | cons q rest ih =>
      have hrest := hmono rest
      simp only [List.countP_cons, decide_eq_true_eq]
      rcases List.mem_cons.mp hp with rfl | hp
      · rw [if_neg (by omega), if_pos hcursor]
        omega
      · have := ih hp
        split <;> split <;> omega

/-- The declarations and the blocks of the text between two offsets.  At each pair the cursor goes
into the body, and then behind the closing brace. -/
def readBlock (cs : List Char) (b : Braces) (cursor stop : Nat) : List Char × List Block :=
  match h : b.next? cursor stop with
  | none => ((slice? cursor stop cs).getD [], [])
  | some (opening, closing) =>
      have := Braces.mem_of_next? h
      let (before, header) := splitLast ((slice? cursor opening cs).getD [])
      let (body, nested) := readBlock cs b (opening + 1) closing
      let (declarations, blocks) := readBlock cs b (closing + 1) stop
      (before ++ declarations, blockOf (trimList header) body nested :: blocks)
termination_by b.pairs.countP (cursor ≤ ·.1)
decreasing_by
  · exact countP_opening_lt this.1 this.2.1 (Nat.lt_succ_self opening)
  · exact countP_opening_lt this.1 this.2.1 (Nat.lt_succ_of_lt (b.ordered _ this.1))

/-- At-rules among the declarations outside all blocks. -/
def statements (declarations : List Char) : List Block :=
  ((splitAt ';' declarations).map trimList).filterMap fun s =>
    if s.head? == some '@' then
      let (name, params) := splitAtRule s
      some (.atRule name params "" [] false)
    else none

/-- Reads a stylesheet.  The at-rules without a block come first. -/
def Sheet.read (css : String) : Except Fault Sheet :=
  let cs := dropComments css.toList
  match bracePairs cs with
  | .ok braces =>
      let (declarations, blocks) := readBlock cs braces 0 (byteSize cs)
      .ok ⟨statements declarations ++ blocks⟩
  | .error f => .error f

end Stencil.Style
