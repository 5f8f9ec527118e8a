import Mathlib.Tactic.SplitIfs
import Stencil.Script.Literal

/-!
# Where holes end

A hole of template text holds code, and it ends at the first closing brace that is no part of the code:
not one that belongs to a brace of the code, and not one in a string, in template text, in a regular
expression or in a comment (`readHole`).  So it ends behind its code exactly if nothing is left open
at the end of the code (`readHole_iff`), and a line comment at the end leaves itself open
(`Complete.not_lineComment`).
-/

namespace Stencil.Render

open Stencil.Script (isLineEnd)

/-- What a place of some code is inside of. -/
inductive Inside where
  | braces
  | string (mark : Char)
  | template
  /-- A hole of template text in the code. -/
  | hole
  | lineComment
  | blockComment
  | regex
  /-- Brackets in a regular expression. -/
  | charClass
  /-- What the next character belongs to is known. -/
  | known
  deriving DecidableEq, Repr

namespace Inside

/-- A character of the code itself.  A brace may end the hole. -/
def ofCode (regex : Bool) (stack : List Inside) (c : Char) (next : Option Char) :
    Option (List Inside) :=
  if c = '\x7d' then
    match stack with
    | [] => none
    | _ :: outer => some outer
  else if c = '\x7b' then some (braces :: stack)
  else if c = '"' ∨ c = '\'' then some (string c :: stack)
  else if c = '\x60' then some (template :: stack)
  else if c = '/' then
    if next = some '/' then some (lineComment :: stack)
    else if next = some '*' then some (known :: blockComment :: stack)
    else if regex then some (.regex :: stack) else some stack
  else some stack

/-- What the place behind a character is inside of, the innermost first, if the hole does not end with
the character; `next` is the character that follows, and `regex` says whether a slash starts a regular
expression here. -/
def step (regex : Bool) (stack : List Inside) (c : Char) (next : Option Char) :
    Option (List Inside) :=
  match stack with
  | known :: outer => some outer
  | string mark :: outer =>
      some (if c = '\\' then known :: stack else if c = mark then outer else stack)
  | template :: outer =>
      some (if c = '\\' then known :: stack else if c = '\x60' then outer
        else if c = '$' ∧ next = some '\x7b' then known :: hole :: stack else stack)
  | lineComment :: outer => some (if isLineEnd c then outer else stack)
  | blockComment :: outer => some (if c = '*' ∧ next = some '/' then known :: outer else stack)
  | .regex :: outer =>
      some (if c = '\\' then known :: stack else if c = '[' then charClass :: stack
        else if c = '/' then outer else stack)
  | charClass :: outer => some (if c = '\\' then known :: stack else if c = ']' then outer else stack)
  | _ => ofCode regex stack c next

end Inside

/-- The code of a hole and what stands behind its closing brace.  Whether a slash behind some
characters, the last of them first, starts a regular expression is for the grammar of the language to
say. -/
def readHole (regex : List Char → Bool) (before : List Char) (stack : List Inside) :
    List Char → Option (List Char × List Char)
  | [] => none
  | c :: rest =>
      match Inside.step (regex before) stack c rest.head? with
      | none => some ([], rest)
      | some stack => (readHole regex (c :: before) stack rest).map fun p => (c :: p.1, p.2)

/-- What the end of some code is inside of, if the hole does not end before; `next` is the character
behind the code. -/
def insideAfter (regex : List Char → Bool) (before : List Char) (stack : List Inside)
    (next : Option Char) : List Char → Option (List Inside)
  | [] => some stack
  | c :: rest =>
      match Inside.step (regex before) stack c (rest.head?.or next) with
      | none => none
      | some stack => insideAfter regex (c :: before) stack next rest

/-- Nothing is left open at the end of the code of a hole. -/
def Complete (regex : List Char → Bool) (code : List Char) : Prop :=
  insideAfter regex [] [] (some '\x7d') code = some []

instance (regex : List Char → Bool) (code : List Char) : Decidable (Complete regex code) :=
  inferInstanceAs (Decidable (_ = _))

section Hole

variable {regex : List Char → Bool} {before : List Char} {stack : List Inside}

/-- A hole ends with a brace where nothing is open. -/
theorem Inside.step_eq_none_iff {b : Bool} {c : Char} {next : Option Char} :
    step b stack c next = none ↔ stack = [] ∧ c = '\x7d' := by
  have hcode : ofCode b stack c next = none ↔ stack = [] ∧ c = '\x7d' := by
    unfold ofCode
    split
    · next hc => cases stack <;> simp [hc]
    · next hc =>
        simp only [hc, and_false, iff_false]
        split_ifs <;> simp
  cases stack with
  | nil => exact hcode
  | cons inside outer => cases inside <;> first | exact hcode | simp [step]

/-- What is read of a hole is its code, a brace and what stands behind it. -/
theorem readHole_eq {cs code rest : List Char} (h : readHole regex before stack cs = some (code, rest)) :
    cs = code ++ '\x7d' :: rest := by
  induction cs generalizing before stack code with
  | nil => cases h
  | cons c more ih =>
      rw [readHole] at h
      split at h
      · next hstep =>
          obtain ⟨-, rfl⟩ := Inside.step_eq_none_iff.mp hstep
          cases h
          rfl
      · obtain ⟨⟨front, tail⟩, hread, heq⟩ := Option.map_eq_some_iff.mp h
        obtain ⟨rfl, rfl⟩ := Prod.mk.inj heq
        rw [ih hread, List.cons_append]

/-- **A hole ends behind its code** exactly if nothing is left open there. -/
theorem readHole_iff {code rest : List Char} :
    readHole regex before stack (code ++ '\x7d' :: rest) = some (code, rest) ↔
      insideAfter regex before stack (some '\x7d') code = some [] := by
  induction code generalizing before stack with
  | nil =>
      rw [List.nil_append, readHole, insideAfter, Option.some_inj]
      split
      · next hstep => simpa using (Inside.step_eq_none_iff.mp hstep).1
      · next hstep =>
          have hopen : stack ≠ [] := fun h => by
            rw [Inside.step_eq_none_iff.mpr ⟨h, rfl⟩] at hstep
            cases hstep
          simp [hopen]
  | cons c more ih =>
      have hnext : (more ++ '\x7d' :: rest).head? = more.head?.or (some '\x7d') := by
        cases more <;> rfl
      rw [List.cons_append, readHole, insideAfter, hnext]
      split
      · simp
      · rw [← ih]
        simp

theorem insideAfter_append (front back : List Char) (next : Option Char) :
    insideAfter regex before stack next (front ++ back) =
      (insideAfter regex before stack (back.head?.or next) front).bind fun stack =>
        insideAfter regex (front.reverse ++ before) stack next back := by
  induction front generalizing before stack with
  | nil => rfl
  | cons c more ih =>
      have hnext : (more ++ back).head?.or next = more.head?.or (back.head?.or next) := by
        rw [List.head?_append, Option.or_assoc]
      rw [List.cons_append, insideAfter, insideAfter, hnext]
      split
      · rfl
      · rw [ih]
        simp

/-- A line comment goes on to the end of the line. -/
theorem insideAfter_lineComment {comment : List Char} (h : ∀ c ∈ comment, isLineEnd c = false)
    (next : Option Char) :
    insideAfter regex before (.lineComment :: stack) next comment = some (.lineComment :: stack) := by
  induction comment generalizing before with
  | nil => rfl
  | cons c more ih =>
      obtain ⟨hc, hmore⟩ := List.forall_mem_cons.mp h
      simp only [insideAfter, Inside.step, hc, Bool.false_eq_true, if_false]
      exact ih hmore

/-- **A line comment at the end** takes the brace behind the code with it. -/
theorem not_complete_of_lineComment {front comment : List Char}
    (hfront : insideAfter regex [] [] (some '/') front = some [])
    (hcomment : ∀ c ∈ comment, isLineEnd c = false) :
    ¬ Complete regex (front ++ '/' :: '/' :: comment) := by
  have hstart : ∀ before, insideAfter regex before [] (some '\x7d') ('/' :: '/' :: comment) =
      some [.lineComment] := by
    intro before
    have hslash : isLineEnd '/' = false := by decide
    have hopen : insideAfter regex before [] (some '\x7d') ('/' :: '/' :: comment) =
        insideAfter regex ('/' :: before) [.lineComment] (some '\x7d') ('/' :: comment) := rfl
    rw [hopen]
    exact insideAfter_lineComment (List.forall_mem_cons.mpr ⟨hslash, hcomment⟩) _
  have hhead : ('/' :: '/' :: comment).head?.or (some '\x7d') = some '/' := rfl
  rw [Complete, insideAfter_append, hhead, hfront, Option.bind_some, hstart]
  simp

end Hole

end Stencil.Render
