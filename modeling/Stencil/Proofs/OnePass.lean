import Stencil.Style.Read

/-!
# Stylesheets in one pass

The blocks of a stylesheet are found by the sorted pairs of its braces.  They can as well be read in
one pass from left to right, with the open blocks on a stack (`readBody`), and both ways give the same
sheet or the same fault (`Sheet.read_eq`).  Between them stands the text as it nests: a `Bracing` is
what stands in front of the first block, what is inside it, and what stands behind it.  Its pairs are
sorted as they are written down (`Bracing.mergeSort_pairs`), and the cursor goes through them in this
order: what is opened in front of it has been read, and what is opened at the bound or behind it
belongs to the text around (`Bracing.At.readBlock_eq`).
-/

namespace Stencil.Style

open Stencil.Text

/-! ### Reading in one pass -/

/-- A body whose closing brace has not been met. -/
structure Body where
  /-- Declarations so far. -/
  declarations : List Char := []
  /-- The text since the last block, reversed. -/
  segment : List Char := []
  /-- The blocks so far, the last one first. -/
  children : List Block := []

/-- All declarations of a body that ends here. -/
def Body.finish (b : Body) : List Char := b.declarations ++ b.segment.reverse

/-- A block whose closing brace has not been met: the body around it, its header and the offset of
its brace. -/
structure Opened where
  outer : Body
  header : List Char
  offset : Nat

/-- Reads a body from a place inside it, with the blocks open around it. -/
def readBody (offset : Nat) (q : Quoting) (stack : List Opened) (body : Body) :
    List Char → Except Fault Body
  | [] =>
      match stack with
      | [] => .ok body
      | opened :: _ => .error (.unbalanced opened.offset)
  | c :: rest =>
      let next := offset + c.utf8Size
      let plain := fun (_ : Unit) =>
        readBody next (q.step c) stack { body with segment := c :: body.segment } rest
      match q with
      | .none =>
          if c == '\x7b' then
            let (before, header) := splitLast body.segment.reverse
            let outer := { body with declarations := body.declarations ++ before, segment := [] }
            readBody next .none (⟨outer, trimList header, offset⟩ :: stack) {} rest
          else if c == '\x7d' then
            match stack with
            | [] => .error (.unbalanced offset)
            | opened :: stack =>
                let block := blockOf opened.header body.finish body.children.reverse
                let outer := { opened.outer with children := block :: opened.outer.children }
                readBody next .none stack outer rest
          else plain ()
      | _ => plain ()

/-! ### Texts as they nest -/

/-- A text with its blocks: it ends without another one, or it has a first one, with what stands in
front of its opening brace, inside it, and behind its closing brace. -/
inductive Bracing where
  | last (text : List Char)
  | block (before : List Char) (inside rest : Bracing)

/-- No brace stands outside strings, and the text ends inside strings or outside as is said. -/
inductive Quoting.Runs : Quoting → List Char → Quoting → Prop
  | nil {q : Quoting} : Runs q [] q
  | cons {q q' : Quoting} {c : Char} {cs : List Char} (hc : q = .none → c ≠ '\x7b' ∧ c ≠ '\x7d')
      (hrest : Runs (q.step c) cs q') : Runs q (c :: cs) q'

namespace Bracing

/-- The text itself. -/
def text : Bracing → List Char
  | last text => text
  | block before inside rest => before ++ '\x7b' :: (inside.text ++ '\x7d' :: rest.text)

/-- The pairs of braces, each in front of those inside it. -/
def pairs (offset : Nat) : Bracing → List (Nat × Nat)
  | last _ => []
  | block before inside rest =>
      let opening := offset + byteSize before
      let closing := opening + 1 + byteSize inside.text
      (opening, closing) :: (inside.pairs (opening + 1) ++ rest.pairs (closing + 1))

/-- The declarations and the blocks. -/
def contents : Bracing → List Char × List Block
  | last text => (text, [])
  | block before inside rest =>
      ((splitLast before).1 ++ rest.contents.1,
        blockOf (trimList (splitLast before).2) inside.contents.1 inside.contents.2 ::
          rest.contents.2)

/-- The braces of the blocks are the ones outside strings. -/
inductive Reads : Quoting → Bracing → Quoting → Prop
  | last {q q' : Quoting} {text : List Char} (h : Quoting.Runs q text q') : Reads q (.last text) q'
  | block {q q' : Quoting} {before : List Char} {inside rest : Bracing} (h : Quoting.Runs q before .none)
      (hinside : Reads .none inside .none) (hrest : Reads .none rest q') :
      Reads q (.block before inside rest) q'

/-- The text with a character more in front. -/
def push (c : Char) : Bracing → Bracing
  | last text => last (c :: text)
  | block before inside rest => block (c :: before) inside rest

/-- A character that is pushed is in front of the text. -/
theorem text_push (c : Char) (t : Bracing) : (t.push c).text = c :: t.text := by
  cases t <;> rfl

/-- A character that is no brace in use is read on the way. -/
theorem Reads.push {q q' : Quoting} {t : Bracing} {c : Char} (h : Reads (q.step c) t q')
    (hc : q = .none → c ≠ '\x7b' ∧ c ≠ '\x7d') : Reads q (t.push c) q' := by
  cases h with
  | last h => exact .last (.cons hc h)
  | block h hinside hrest => exact .block (.cons hc h) hinside hrest

/-- What stands behind a place inside some blocks: the rest of the text of the innermost one, and
behind its closing brace what stands behind a place in the block around it. -/
inductive Ends : Nat → Quoting → List Char → Prop
  | outermost {q q' : Quoting} {t : Bracing} (h : t.Reads q q') : Ends 0 q t.text
  | inside {depth : Nat} {q : Quoting} {t : Bracing} {rest : List Char} (h : t.Reads q .none)
      (hrest : Ends depth .none rest) : Ends (depth + 1) q (t.text ++ '\x7d' :: rest)

/-- Such a character does not matter to where the text ends. -/
theorem Ends.push {depth : Nat} {q : Quoting} {c : Char} {cs : List Char}
    (h : Ends depth (q.step c) cs) (hc : q = .none → c ≠ '\x7b' ∧ c ≠ '\x7d') :
    Ends depth q (c :: cs) := by
  cases h with
  | outermost h =>
      rw [← text_push]
      exact .outermost (h.push hc)
  | inside h hrest =>
      rw [← List.cons_append, ← text_push]
      exact .inside (h.push hc) hrest

/-- What stands behind the braces of a block belongs to the block around it. -/
theorem Ends.opening {depth : Nat} {cs : List Char} (h : Ends (depth + 1) .none cs) :
    Ends depth .none ('\x7b' :: cs) := by
  cases h with
  | @inside _ _ inside _ hinside hrest =>
      cases hrest with
      | outermost h => exact .outermost (.block .nil hinside h)
      | @inside _ _ t rest h hrest =>
          have hblock : Reads .none (.block [] inside t) .none := .block .nil hinside h
          simpa [text] using Ends.inside hblock hrest

/-- If all pairs are found, then the text nests. -/
theorem ends_of_pairBraces {offset : Nat} {q : Quoting} {stack : List Nat} {cs : List Char}
    {found all : List (Nat × Nat)} (h : pairBraces offset q stack found cs = .ok all) :
    Ends stack.length q cs := by
  induction cs generalizing offset q stack found with
  | nil =>
      cases stack with
      | nil => exact .outermost (t := .last []) (.last .nil)
      | cons opening stack => cases h
  | cons c rest ih =>
      simp only [pairBraces] at h
      split at h
      · split at h
        · next hopen =>
          obtain rfl : c = '\x7b' := by simpa using hopen
          exact (ih h).opening
        · next hopen =>
          split at h
          · next hclose =>
            obtain rfl : c = '\x7d' := by simpa using hclose
            split at h
            · cases h
            · exact .inside (t := .last []) (.last .nil) (ih h)
          · next hclose =>
            exact (ih h).push fun _ => ⟨by simpa using hopen, by simpa using hclose⟩
      · next hq => exact (ih h).push fun hnone => absurd hnone hq

/-! ### The pairs of a text -/

/-- The pairs stand within their text. -/
theorem le_of_mem_pairs {t : Bracing} {offset : Nat} {p : Nat × Nat} (hp : p ∈ t.pairs offset) :
    offset ≤ p.1 ∧ p.1 < offset + byteSize t.text := by
  induction t generalizing offset with
  | last text => cases hp
  | block before inside rest ihInside ihRest =>
      have hopen : '\x7b'.utf8Size = 1 := by decide
      have hclose : '\x7d'.utf8Size = 1 := by decide
      simp only [pairs, List.mem_cons, List.mem_append] at hp
      simp only [text, byteSize_append, byteSize_cons]
      rcases hp with rfl | hp | hp
      · simp only
        omega
      · have := ihInside hp
        omega
      · have := ihRest hp
        omega

/-- The pairs are written down in the order of the opening braces. -/
theorem pairwise_pairs (t : Bracing) (offset : Nat) :
    (t.pairs offset).Pairwise fun p q => p.1 < q.1 := by
  induction t generalizing offset with
  | last text => exact .nil
  | block before inside rest ihInside ihRest =>
      refine .cons (fun q hq => ?_) (List.pairwise_append.mpr ⟨ihInside _, ihRest _, ?_⟩)
      · rcases List.mem_append.mp hq with hq | hq
        · have := le_of_mem_pairs hq
          omega
        · have := le_of_mem_pairs hq
          omega
      · intro p hp q hq
        have := le_of_mem_pairs hp
        have := le_of_mem_pairs hq
        omega

/-- Pairing braces runs over a text without braces in use. -/
theorem pairBraces_runs {q q' : Quoting} {cs : List Char} (h : Quoting.Runs q cs q') (offset : Nat)
    (stack : List Nat) (found : List (Nat × Nat)) (rest : List Char) :
    pairBraces offset q stack found (cs ++ rest) =
      pairBraces (offset + byteSize cs) q' stack found rest := by
  induction h generalizing offset with
  | nil => rfl
  | @cons q q' c cs hc _ ih =>
      have hstep : pairBraces offset q stack found (c :: (cs ++ rest)) =
          pairBraces (offset + c.utf8Size) (q.step c) stack found (cs ++ rest) := by
        cases q with
        | none =>
            obtain ⟨hopen, hclose⟩ := hc rfl
            simp [pairBraces, hopen, hclose]
        | inside mark => rfl
        | escaped mark => rfl
      rw [List.cons_append, hstep, ih, byteSize_cons, Nat.add_assoc]

/-- In one pass the pairs are found in the order of the closing braces. -/
theorem Reads.pairBraces {q q' : Quoting} {t : Bracing} (h : t.Reads q q') (offset : Nat) :
    ∃ pairs, pairs.Perm (t.pairs offset) ∧ ∀ stack found rest,
      Style.pairBraces offset q stack found (t.text ++ rest) =
        Style.pairBraces (offset + byteSize t.text) q' stack (found ++ pairs) rest := by
  induction h generalizing offset with
  | last h => exact ⟨[], .nil, fun stack found rest => by
      rw [List.append_nil]
      exact pairBraces_runs h offset stack found rest⟩
  | @block q q' before inside rest h _ _ ihInside ihRest =>
      obtain ⟨inner, hinner, hinside⟩ := ihInside (offset + byteSize before + 1)
      obtain ⟨later, hlater, hrest⟩ :=
        ihRest (offset + byteSize before + 1 + byteSize inside.text + 1)
      refine ⟨inner ++ (offset + byteSize before, offset + byteSize before + 1 +
        byteSize inside.text) :: later, ?_, fun stack found more => ?_⟩
      · exact List.perm_middle.trans ((hinner.append hlater).cons _)
      · -- the opening brace goes on the stack, and the closing one takes it off again
        have hopen : '\x7b'.utf8Size = 1 := by decide
        have hclose : '\x7d'.utf8Size = 1 := by decide
        have hend : offset + byteSize (before ++ '\x7b' :: (inside.text ++ '\x7d' :: rest.text)) =
            offset + byteSize before + 1 + byteSize inside.text + 1 + byteSize rest.text := by
          simp only [byteSize_append, byteSize_cons]
          omega
        simp only [text, List.append_assoc, List.cons_append]
        rw [pairBraces_runs h]
        change Style.pairBraces (offset + byteSize before + 1) .none _ found _ = _
        rw [hinside]
        change Style.pairBraces (offset + byteSize before + 1 + byteSize inside.text + 1) .none stack
          (found ++ inner ++ [_]) _ = _
        rw [hrest, hend]
        simp only [List.append_assoc, List.cons_append, List.nil_append]

/-- Sorted, they are the pairs as they are written down. -/
theorem mergeSort_pairs {t : Bracing} {offset : Nat} {found : List (Nat × Nat)}
    (h : found.Perm (t.pairs offset)) : found.mergeSort pairBefore = t.pairs offset := by
  have hsorted : (t.pairs offset).Pairwise (pairBefore · ·) :=
    (t.pairwise_pairs offset).imp fun {p q} hpq => by simp [pairBefore, hpq]
  have hmerge : (found.mergeSort pairBefore).Pairwise (pairBefore · ·) :=
    List.pairwise_mergeSort (fun a b c => by simp [pairBefore]; omega)
      (fun a b => by simp [pairBefore]; omega) found
  refine List.Perm.eq_of_pairwise (fun a b _ _ hab hba => ?_) hmerge hsorted
    ((List.mergeSort_perm found _).trans h)
  simp only [pairBefore, Bool.or_eq_true, Bool.and_eq_true, decide_eq_true_eq, beq_iff_eq] at hab hba
  exact Prod.ext (by omega) (by omega)

/-! ### Reading a text with its pairs -/

/-- The first pair at the cursor is the first that is not in front of it. -/
theorem next?_eq {b : Braces} {before later : List (Nat × Nat)} {cursor stop : Nat}
    (hb : b.pairs = before ++ later) (hbefore : ∀ p ∈ before, p.1 < cursor)
    (hlater : ∀ p ∈ later, cursor ≤ p.1) :
    b.next? cursor stop = later.head?.filter (·.1 < stop) := by
  have hnone : later.takeWhile (·.1 < cursor) = [] := by
    cases later with
    | nil => rfl
    | cons p rest =>
        have := hlater p (List.mem_cons_self ..)
        simp [this]
  rw [Braces.next?, hb, List.takeWhile_append_of_pos (by simpa using hbefore), hnone]
  simp [List.getElem?_append_right, List.head?_eq_getElem?]

/-- A block without braces up to its end is one of declarations. -/
theorem readBlock_of_none {cs : List Char} {b : Braces} {cursor stop : Nat}
    (h : b.next? cursor stop = none) :
    readBlock cs b cursor stop = ((slice? cursor stop cs).getD [], []) := by
  rw [readBlock]
  split
  · rfl
  · next hsome => rw [h] at hsome; cases hsome

/-- A block with braces is what is in front of them, the block in them, and what is behind. -/
theorem readBlock_of_some {cs : List Char} {b : Braces} {cursor stop opening closing : Nat}
    (h : b.next? cursor stop = some (opening, closing)) :
    readBlock cs b cursor stop =
      ((splitLast ((slice? cursor opening cs).getD [])).1 ++ (readBlock cs b (closing + 1) stop).1,
        blockOf (trimList (splitLast ((slice? cursor opening cs).getD [])).2)
          (readBlock cs b (opening + 1) closing).1 (readBlock cs b (opening + 1) closing).2 ::
          (readBlock cs b (closing + 1) stop).2) := by
  rw [readBlock]
  split
  · next hnone => rw [h] at hnone; cases hnone
  · next hsome =>
      rw [h] at hsome
      cases hsome
      rfl

/-- The cursor stands at a part of the text, which goes up to the bound: the pairs that are sorted in
front of those of the part are opened in front of the cursor, and those behind at the bound or later. -/
structure At (t : Bracing) (cs : List Char) (b : Braces) (cursor stop : Nat) : Prop where
  placed : ∃ front back, cs = front ++ (t.text ++ back) ∧ cursor = byteSize front
  bound : stop = cursor + byteSize t.text
  pairs : ∃ before later, b.pairs = before ++ (t.pairs cursor ++ later) ∧
    (∀ p ∈ before, p.1 < cursor) ∧ ∀ p ∈ later, stop ≤ p.1

/-- The whole text is a part that starts at its beginning. -/
theorem at_start {t : Bracing} {b : Braces} (h : b.pairs = t.pairs 0) :
    t.At t.text b 0 (byteSize t.text) where
  placed := ⟨[], [], by simp, rfl⟩
  bound := (Nat.zero_add _).symm
  pairs := ⟨[], [], by simpa using h, by simp, by simp⟩

section Cursor

variable {cs segment : List Char} {b : Braces} {cursor stop : Nat} {inside rest : Bracing}

/-- No pair is met in a part without blocks. -/
theorem At.next?_last {text : List Char} (h : (last text).At cs b cursor stop) :
    b.next? cursor stop = none := by
  obtain ⟨before, later, hb, hbefore, hlater⟩ := h.pairs
  have hstop := h.bound
  rw [next?_eq hb hbefore fun p hp => Nat.le_trans (by omega) (hlater p hp)]
  cases later with
  | nil => rfl
  | cons p more =>
      have := hlater p (List.mem_cons_self ..)
      simpa [Bracing.pairs] using this

/-- The bound of a part that starts with a block. -/
theorem At.bound_block (h : (block segment inside rest).At cs b cursor stop) :
    stop = cursor + byteSize segment + 1 + byteSize inside.text + 1 + byteSize rest.text := by
  have hopen : '\x7b'.utf8Size = 1 := by decide
  have hclose : '\x7d'.utf8Size = 1 := by decide
  rw [h.bound]
  simp only [Bracing.text, byteSize_append, byteSize_cons]
  omega

/-- The first pair that is met is that of the first block. -/
theorem At.next?_block (h : (block segment inside rest).At cs b cursor stop) :
    b.next? cursor stop =
      some (cursor + byteSize segment, cursor + byteSize segment + 1 + byteSize inside.text) := by
  obtain ⟨before, later, hb, hbefore, hlater⟩ := h.pairs
  have hstop := h.bound_block
  simp only [Bracing.pairs, List.cons_append, List.append_assoc] at hb
  rw [next?_eq hb hbefore]
  · simp only [List.head?_cons, Option.filter_some, decide_eq_true_eq]
    rw [if_pos (by omega)]
  · intro p hp
    simp only [List.mem_cons, List.mem_append] at hp
    rcases hp with rfl | hp | hp | hp
    · exact Nat.le_add_right ..
    · exact Nat.le_trans (by omega) (le_of_mem_pairs hp).1
    · exact Nat.le_trans (by omega) (le_of_mem_pairs hp).1
    · exact Nat.le_trans (by omega) (hlater p hp)

/-- What is cut at the cursor stands in front of the first block, or is the part if it has none. -/
theorem At.slice?_eq {t : Bracing} (h : t.At cs b cursor stop) {part more : List Char}
    (ht : t.text = part ++ more) : slice? cursor (cursor + byteSize part) cs = some part := by
  obtain ⟨front, back, rfl, rfl⟩ := h.placed
  rw [ht, List.append_assoc]
  exact slice?_append ..

/-- Behind the opening brace the cursor is at what is inside the block, up to the closing one. -/
theorem At.enter (h : (block segment inside rest).At cs b cursor stop) :
    inside.At cs b (cursor + byteSize segment + 1)
      (cursor + byteSize segment + 1 + byteSize inside.text) := by
  obtain ⟨front, back, rfl, hcursor⟩ := h.placed
  obtain ⟨before, later, hb, hbefore, hlater⟩ := h.pairs
  have hstop := h.bound_block
  have hopen : '\x7b'.utf8Size = 1 := by decide
  refine ⟨⟨front ++ segment ++ ['\x7b'], '\x7d' :: (rest.text ++ back), by simp [Bracing.text], ?_⟩, rfl,
    before ++ [(cursor + byteSize segment, cursor + byteSize segment + 1 + byteSize inside.text)],
    rest.pairs (cursor + byteSize segment + 1 + byteSize inside.text + 1) ++ later,
    by simpa [Bracing.pairs] using hb, fun p hp => ?_, fun p hp => ?_⟩
  · simp [hopen, hcursor]
    omega
  · rcases List.mem_append.mp hp with hp | hp
    · exact Nat.lt_of_lt_of_le (hbefore p hp) (by omega)
    · cases List.mem_singleton.mp hp
      exact Nat.lt_succ_self _
  · rcases List.mem_append.mp hp with hp | hp
    · exact Nat.le_trans (by omega) (le_of_mem_pairs hp).1
    · exact Nat.le_trans (by omega) (hlater p hp)

/-- Behind the closing brace the cursor is at the rest, up to the same bound. -/
theorem At.leave (h : (block segment inside rest).At cs b cursor stop) :
    rest.At cs b (cursor + byteSize segment + 1 + byteSize inside.text + 1) stop := by
  obtain ⟨front, back, rfl, hcursor⟩ := h.placed
  obtain ⟨before, later, hb, hbefore, hlater⟩ := h.pairs
  have hopen : '\x7b'.utf8Size = 1 := by decide
  have hclose : '\x7d'.utf8Size = 1 := by decide
  refine ⟨⟨front ++ segment ++ '\x7b' :: (inside.text ++ ['\x7d']), back, by simp [Bracing.text], ?_⟩,
    h.bound_block, before ++
      (cursor + byteSize segment, cursor + byteSize segment + 1 + byteSize inside.text) ::
        inside.pairs (cursor + byteSize segment + 1),
    later, by simpa [Bracing.pairs] using hb, fun p hp => ?_, hlater⟩
  · simp [hopen, hclose, hcursor]
    omega
  · simp only [List.mem_append, List.mem_cons] at hp
    rcases hp with hp | rfl | hp
    · exact Nat.lt_of_lt_of_le (hbefore p hp) (by omega)
    · simp only
      omega
    · have := (le_of_mem_pairs hp).2
      omega

end Cursor

/-- **The cursor and the sorted pairs.**  What is read from the cursor to the bound are the declarations
and the blocks of the part it stands at. -/
theorem At.readBlock_eq {t : Bracing} {cs : List Char} {b : Braces} {cursor stop : Nat}
    (h : t.At cs b cursor stop) : readBlock cs b cursor stop = t.contents := by
  induction t generalizing cursor stop with
  | last text =>
      rw [readBlock_of_none h.next?_last, h.bound, Bracing.text, h.slice?_eq (List.append_nil text).symm]
      rfl
  | block segment inside rest ihInside ihRest =>
      rw [readBlock_of_some h.next?_block, h.slice?_eq rfl, ihInside h.enter, ihRest h.leave]
      rfl

/-- Reading a body runs over a text without braces in use. -/
theorem readBody_runs {q q' : Quoting} {cs : List Char} (h : Quoting.Runs q cs q') (offset : Nat)
    (stack : List Opened) (body : Body) (rest : List Char) :
    readBody offset q stack body (cs ++ rest) =
      readBody (offset + byteSize cs) q' stack
        { body with segment := cs.reverse ++ body.segment } rest := by
  induction h generalizing offset body with
  | nil => rfl
  | @cons q q' c cs hc _ ih =>
      have hstep : readBody offset q stack body (c :: (cs ++ rest)) =
          readBody (offset + c.utf8Size) (q.step c) stack
            { body with segment := c :: body.segment } (cs ++ rest) := by
        cases q with
        | none =>
            obtain ⟨hopen, hclose⟩ := hc rfl
            simp [readBody, hopen, hclose]
        | inside mark => rfl
        | escaped mark => rfl
      rw [List.cons_append, hstep, ih, byteSize_cons, Nat.add_assoc]
      simp

/-- One pass over a text adds its declarations and its blocks to the body around it. -/
theorem Reads.readBody {q q' : Quoting} {t : Bracing} (h : t.Reads q q') (offset : Nat)
    (stack : List Opened) (declarations : List Char) (children : List Block) :
    ∃ body : Body, body.finish = declarations ++ t.contents.1 ∧
      body.children = t.contents.2.reverse ++ children ∧ ∀ rest,
        Style.readBody offset q stack ⟨declarations, [], children⟩ (t.text ++ rest) =
          Style.readBody (offset + byteSize t.text) q' stack body rest := by
  induction h generalizing offset stack declarations children with
  | @last q q' text h =>
      refine ⟨⟨declarations, text.reverse, children⟩, by simp [Body.finish, contents], rfl,
        fun rest => ?_⟩
      rw [Bracing.text, readBody_runs h, List.append_nil]
  | @block q q' before inside rest h _ _ ihInside ihRest =>
      have hopen : '\x7b'.utf8Size = 1 := by decide
      have hclose : '\x7d'.utf8Size = 1 := by decide
      let outer : Body := ⟨declarations ++ (splitLast before).1, [], children⟩
      let opened : Opened := ⟨outer, trimList (splitLast before).2, offset + byteSize before⟩
      obtain ⟨inner, hfinish, hchildren, hinside⟩ :=
        ihInside (offset + byteSize before + 1) (opened :: stack) [] []
      have hblock : blockOf opened.header inner.finish inner.children.reverse =
          blockOf (trimList (splitLast before).2) inside.contents.1 inside.contents.2 := by
        simp [opened, hfinish, hchildren]
      obtain ⟨body, hbody, hblocks, hrest⟩ :=
        ihRest (offset + byteSize before + 1 + byteSize inside.text + 1) stack
          (declarations ++ (splitLast before).1)
          (blockOf opened.header inner.finish inner.children.reverse :: children)
      refine ⟨body, ?_, ?_, fun more => ?_⟩
      · simp [hbody, contents]
      · simp [hblocks, hblock, contents]
      · have hend : offset + byteSize (before ++ '\x7b' :: (inside.text ++ '\x7d' :: rest.text)) =
            offset + byteSize before + 1 + byteSize inside.text + 1 + byteSize rest.text := by
          simp only [byteSize_append, byteSize_cons]
          omega
        simp only [text, List.append_assoc, List.cons_append]
        rw [readBody_runs h, hend, ← hrest]
        simp only [Style.readBody, beq_self_eq_true, if_true, List.append_nil, List.reverse_reverse]
        change Style.readBody (offset + byteSize before + 1) .none (opened :: stack) {} _ = _
        rw [hinside]
        rfl

/-- Both ways of reading meet the same fault. -/
theorem readBody_of_pairBraces_error {offset : Nat} {q : Quoting} {stack : List Opened}
    {found : List (Nat × Nat)} {cs : List Char} {f : Fault} (body : Body)
    (h : pairBraces offset q (stack.map Opened.offset) found cs = .error f) :
    readBody offset q stack body cs = .error f := by
  induction cs generalizing offset q stack found body with
  | nil =>
      cases stack with
      | nil => cases h
      | cons opened stack =>
          cases h
          rfl
  | cons c rest ih =>
      simp only [pairBraces] at h
      simp only [Style.readBody]
      split at h
      · split at h
        · next hopen =>
          rw [if_pos hopen]
          exact ih _ h
        · next hopen =>
          rw [if_neg hopen]
          split at h
          · next hclose =>
            rw [if_pos hclose]
            cases stack with
            | nil =>
                cases h
                rfl
            | cons opened stack => exact ih _ h
          · next hclose =>
            rw [if_neg hclose]
            exact ih _ h
      · next hq =>
          cases q with
          | none => exact absurd rfl hq
          | inside mark => exact ih _ h
          | escaped mark => exact ih _ h

end Bracing

/-- **A stylesheet in one pass.**  The sorted pairs of braces and the stack of open blocks give the
same declarations and the same blocks, or the same fault. -/
theorem Sheet.read_eq (css : String) :
    Sheet.read css =
      match readBody 0 .none [] {} (dropComments css.toList) with
      | .ok body => .ok ⟨statements body.finish ++ body.children.reverse⟩
      | .error f => .error f := by
  generalize hcs : dropComments css.toList = cs
  cases hpairs : pairBraces 0 .none [] [] cs with
  | error f =>
      have hbraces : bracePairs cs = .error f := by
        rw [bracePairs]
        split
        · next hok => rw [hpairs] at hok; cases hok
        · next herror => rw [hpairs] at herror; cases herror; rfl
      have hbody : readBody 0 .none [] {} cs = .error f :=
        Bracing.readBody_of_pairBraces_error {} hpairs
      simp only [Sheet.read, hcs, hbraces, hbody]
  | ok found =>
      obtain ⟨t, q, ht, rfl⟩ : ∃ (t : Bracing) (q : Quoting), t.Reads .none q ∧ t.text = cs := by
        cases Bracing.ends_of_pairBraces hpairs with
        | outermost h => exact ⟨_, _, h, rfl⟩
      obtain ⟨pairs, hperm, hfound⟩ := ht.pairBraces 0
      obtain ⟨body, hfinish, hchildren, hread⟩ := ht.readBody 0 [] [] []
      obtain rfl : pairs = found := by
        have hall := hfound [] [] []
        rw [List.append_nil] at hall
        exact Except.ok.inj (hall.symm.trans hpairs)
      obtain ⟨braces, hbraces, hsorted⟩ :
          ∃ braces : Braces, bracePairs t.text = .ok braces ∧ braces.pairs = t.pairs 0 := by
        rw [bracePairs]
        split
        · next hok =>
            cases hok.symm.trans hpairs
            exact ⟨_, rfl, Bracing.mergeSort_pairs hperm⟩
        · next herror => cases herror.symm.trans hpairs
      have hblock := (Bracing.at_start hsorted).readBlock_eq
      have hbody : readBody 0 .none [] {} t.text = .ok body := by
        have := hread []
        rwa [List.append_nil] at this
      simp only [Sheet.read, hcs, hbraces, hblock, hbody, hfinish, hchildren, List.nil_append,
        List.append_nil, List.reverse_reverse]

end Stencil.Style
