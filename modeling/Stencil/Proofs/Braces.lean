import Stencil.Proofs.Flattening
import Stencil.Proofs.Pairing

/-!
# Stylesheets and their braces

The braces of a stylesheet are those outside its strings (`bracesFrom`).  A stylesheet is read exactly
if its braces are balanced, and its blocks stand beside and inside each other as the pairs of braces
do (`Sheet.read_mirrors`).  While it is read, the braces met so far are those of the blocks that are
complete, and one opening brace for each block that is not (`Awaits`).
-/

namespace Stencil.Style

open Stencil.Text Stencil.Brackets

/-! ### Braces outside strings -/

/-- What is left of a string with the given mark, up to the mark that ends it, and what stands behind
it.  A backslash takes the next character with it. -/
def restOfString (mark : Char) : List Char → List Char × List Char
  | [] => ([], [])
  | c :: rest =>
      if c = '\\' then
        match rest with
        | [] => ([c], [])
        | next :: rest =>
            (c :: next :: (restOfString mark rest).1, (restOfString mark rest).2)
      else if c = mark then ([c], rest)
      else (c :: (restOfString mark rest).1, (restOfString mark rest).2)

/-- The rest of a string and what is behind it are the characters given. -/
theorem restOfString_append (mark : Char) (cs : List Char) :
    (restOfString mark cs).1 ++ (restOfString mark cs).2 = cs := by
  fun_induction restOfString mark cs <;> simp_all

/-- The braces outside strings, each at its offset. -/
def bracesFrom (offset : Nat) (cs : List Char) : List Mark :=
  match cs with
  | [] => []
  | c :: rest =>
      if c = '"' ∨ c = '\'' then
        bracesFrom (offset + c.utf8Size + byteSize (restOfString c rest).1) (restOfString c rest).2
      else if c = '\x7b' then .opening offset :: bracesFrom (offset + c.utf8Size) rest
      else if c = '\x7d' then .closing offset :: bracesFrom (offset + c.utf8Size) rest
      else bracesFrom (offset + c.utf8Size) rest
termination_by cs.length
decreasing_by
  · have := congrArg List.length (restOfString_append c rest)
    simp only [List.length_append, List.length_cons] at this ⊢
    omega
  all_goals simp

/-- No mark found is in front of where the search began. -/
theorem le_place_of_mem {offset : Nat} {cs : List Char} {m : Mark}
    (h : m ∈ bracesFrom offset cs) : offset ≤ m.place := by
  fun_induction bracesFrom offset cs with
  | case1 => simp at h
  | case2 offset c rest _ ih => grind
  | case3 offset rest _ ih =>
      rcases List.mem_cons.mp h with rfl | h
      · exact Nat.le_refl _
      · exact Nat.le_trans (Nat.le_add_right ..) (ih h)
  | case4 offset rest _ _ ih =>
      rcases List.mem_cons.mp h with rfl | h
      · exact Nat.le_refl _
      · exact Nat.le_trans (Nat.le_add_right ..) (ih h)
  | case5 offset c rest _ _ _ ih => exact Nat.le_trans (Nat.le_add_right ..) (ih h)

/-- The marks are found in order. -/
theorem ordered_bracesFrom (offset : Nat) (cs : List Char) : Ordered (bracesFrom offset cs) := by
  have hlater : ∀ {offset : Nat} {c : Char} {rest : List Char} {m : Mark},
      m ∈ bracesFrom (offset + c.utf8Size) rest → offset < m.place := by
    intro offset c rest m hm
    have := le_place_of_mem hm
    have := c.utf8Size_pos
    omega
  fun_induction bracesFrom offset cs with
  | case1 => exact .nil
  | case2 _ _ _ _ ih => exact ih
  | case3 _ _ _ ih => exact .cons (fun m hm => hlater hm) ih
  | case4 _ _ _ _ ih => exact .cons (fun m hm => hlater hm) ih
  | case5 _ _ _ _ _ _ ih => exact ih

/-! ### Blocks and pairs of braces -/

/-- Whether the block has a body in braces. -/
def Block.hasBody : Block → Bool
  | .rule _ _ _ => true
  | .atRule _ _ _ _ braced => braced

/-- The blocks with a body stand beside and inside each other as the pairs do. -/
inductive Mirrors : List Block → Pairing → Prop
  | nil : Mirrors [] .nil
  | statement {b : Block} {rest : List Block} {f : Pairing} (hb : b.hasBody = false)
      (h : Mirrors rest f) : Mirrors (b :: rest) f
  | block {b : Block} {rest : List Block} {inside f : Pairing} {start stop : Nat}
      (hb : b.hasBody = true) (hinside : Mirrors b.children inside) (hrest : Mirrors rest f) :
      Mirrors (b :: rest) (.cons start stop inside f)

/-- Blocks joined mirror pairings joined. -/
theorem Mirrors.append {bs more : List Block} {f g : Pairing} (h : Mirrors bs f)
    (h' : Mirrors more g) : Mirrors (bs ++ more) (f.append g) := by
  induction h with
  | nil => exact h'
  | statement hb _ ih => exact .statement hb ih
  | block hb hinside _ _ ih => exact .block hb hinside ih

/-- Statements have no bodies to mirror. -/
theorem mirrors_statements {bs : List Block} (h : ∀ b ∈ bs, b.hasBody = false) :
    Mirrors bs .nil := by
  induction bs with
  | nil => exact .nil
  | cons b rest ih =>
      obtain ⟨hb, hrest⟩ := List.forall_mem_cons.mp h
      exact .statement hb (ih hrest)

/-- A statement has no body. -/
theorem hasBody_of_mem_statements {declarations : List Char} {b : Block}
    (hb : b ∈ statements declarations) : b.hasBody = false := by
  obtain ⟨piece, -, rfl⟩ := exists_of_mem_statements hb
  rfl

/-- What is put together at a closing brace is one block, for the pair that ends there. -/
theorem mirrors_blockOf (header declarations : List Char) {children : List Block} {f : Pairing}
    (h : Mirrors children f) (start stop : Nat) :
    Mirrors [blockOf header declarations children] (.cons start stop f .nil) := by
  unfold blockOf
  split
  · exact .block rfl h .nil
  · exact .block rfl h .nil

/-- What has been read of a stylesheet and its braces: the blocks of a body are complete, and each
block that is open around it waits for one more brace. -/
inductive Awaits : List Opened → Body → List Mark → Prop
  | outermost {body : Body} {f : Pairing} (h : Mirrors body.children.reverse f) :
      Awaits [] body f.marks
  | inside {opened : Opened} {stack : List Opened} {body : Body} {before : List Mark} {f : Pairing}
      (hbefore : Awaits stack opened.outer before) (h : Mirrors body.children.reverse f) :
      Awaits (opened :: stack) body (before ++ .opening opened.offset :: f.marks)

section Awaits

variable {stack : List Opened} {opened : Opened} {body body' : Body} {braces : List Mark}

/-- What a body awaits depends on its children only. -/
theorem Awaits.congr (h : Awaits stack body braces) (hbody : body'.children = body.children) :
    Awaits stack body' braces := by
  cases h with
  | outermost h => exact .outermost (hbody ▸ h)
  | inside hbefore h => exact .inside hbefore (hbody ▸ h)

/-- A block more in the innermost body, and its braces. -/
theorem Awaits.add {b : Block} {g : Pairing} (h : Awaits stack body braces) (hb : Mirrors [b] g) :
    Awaits stack { body with children := b :: body.children } (braces ++ g.marks) := by
  have hmore : ∀ {f}, Mirrors body.children.reverse f →
      Mirrors ({ body with children := b :: body.children } : Body).children.reverse
        (f.append g) := by
    intro f hf
    rw [List.reverse_cons]
    exact hf.append hb
  cases h with
  | outermost h =>
      rw [← Pairing.marks_append]
      exact .outermost (hmore h)
  | inside hbefore h =>
      rw [List.append_assoc, List.cons_append, ← Pairing.marks_append]
      exact .inside hbefore (hmore h)

/-- An opening brace starts a block. -/
theorem Awaits.opening (h : Awaits stack opened.outer braces) :
    Awaits (opened :: stack) {} (braces ++ [.opening opened.offset]) :=
  .inside (f := .nil) h .nil

/-- A closing brace completes the innermost block. -/
theorem Awaits.closing (h : Awaits (opened :: stack) body braces) (offset : Nat) :
    Awaits stack
      { opened.outer with
        children := blockOf opened.header body.finish body.children.reverse ::
          opened.outer.children } (braces ++ [.closing offset]) := by
  cases h with
  | @inside _ _ _ before f hbefore h =>
      have hadd := hbefore.add (mirrors_blockOf opened.header body.finish h opened.offset offset)
      simpa [Pairing.marks] using hadd

/-- No closing brace has been read without its partner. -/
theorem Awaits.exists_start (h : Awaits stack body braces) (stop : Nat)
    (hstop : .closing stop ∈ braces) : ∃ start, Partners braces start stop := by
  induction h with
  | @outermost _ f _ => exact f.balanced_marks.exists_start hstop
  | @inside opened _ _ before f _ _ ih =>
      rcases List.mem_append.mp hstop with hmem | hmem
      · obtain ⟨start, hstart⟩ := ih hmem
        exact ⟨start, hstart.append_right _⟩
      · rcases List.mem_cons.mp hmem with heq | hmem
        · cases heq
        · obtain ⟨start, hstart⟩ := f.balanced_marks.exists_start hmem
          exact ⟨start, (hstart.append_left [.opening opened.offset]).append_left before⟩

/-! ### Reading a body -/

/-- A plain character is written to the body. -/
theorem readBody_plain {c : Char} (hquote : ¬ (c = '"' ∨ c = '\'')) (hopen : c ≠ '\x7b')
    (hclose : c ≠ '\x7d') (offset : Nat) (stack : List Opened) (body : Body) (rest : List Char) :
    readBody offset .none stack body (c :: rest) =
      readBody (offset + c.utf8Size) .none stack (body.write [c]) rest := by
  simp_all [readBody, Quoting.step, Body.write]

/-- A string belongs to the text of the innermost body. -/
theorem readBody_string (mark : Char) (offset : Nat) (stack : List Opened) (body : Body)
    (cs : List Char) : readBody offset (.inside mark) stack body cs =
      readBody (offset + byteSize (restOfString mark cs).1) .none stack
        (body.write (restOfString mark cs).1) (restOfString mark cs).2 := by
  fun_induction restOfString mark cs generalizing offset body with
  | case1 => simp [readBody, Body.write]
  | case2 => simp [readBody, Body.write]
  | case3 => simp_all [readBody, Body.write, Quoting.step, Nat.add_assoc]
  | case4 => simp_all [readBody, Body.write, Quoting.step]
  | case5 => simp_all [readBody, Body.write, Quoting.step, Nat.add_assoc]

/-- A string is written to the body as a whole. -/
theorem readBody_quote {c : Char} (hquote : c = '"' ∨ c = '\'') (offset : Nat)
    (stack : List Opened) (body : Body) (rest : List Char) :
    readBody offset .none stack body (c :: rest) =
      readBody (offset + c.utf8Size + byteSize (restOfString c rest).1) .none stack
        (body.write (c :: (restOfString c rest).1)) (restOfString c rest).2 := by
  have hstart : readBody offset .none stack body (c :: rest) =
      readBody (offset + c.utf8Size) (.inside c) stack (body.write [c]) rest := by
    rcases hquote with rfl | rfl <;> simp [readBody, Quoting.step, Body.write]
  rw [hstart, readBody_string]
  simp [Body.write]

/-- **A body with its braces.**  If it can be read to its end, then its blocks are the pairs of its
braces, and otherwise the brace that is reported is to blame. -/
theorem Awaits.read (h : Awaits stack body braces) (offset : Nat) (cs : List Char)
    (hordered : Ordered (braces ++ bracesFrom offset cs)) :
    match readBody offset .none stack body cs with
    | .ok body' => ∃ f, Mirrors body'.children.reverse f ∧ f.marks = braces ++ bracesFrom offset cs
    | .error fault => ∃ place, fault = .unbalanced place ∧
        ToBlame (braces ++ bracesFrom offset cs) place := by
  fun_induction bracesFrom offset cs generalizing stack body braces with
  | case1 offset =>
      rw [List.append_nil] at hordered ⊢
      cases h with
      | @outermost _ f h => exact ⟨f, h, rfl⟩
      | @inside opened stack body before f hbefore h =>
          exact ⟨_, rfl, toBlame_opening f.balanced_marks hbefore.exists_start hordered⟩
  | case2 offset c rest hquote ih =>
      rw [readBody_quote hquote]
      exact ih (h.congr rfl) hordered
  | case3 offset rest _ ih =>
      rw [readBody_open]
      rw [List.append_cons] at hordered ⊢
      exact ih (Awaits.opening (h.congr rfl)) hordered
  | case4 offset rest _ _ ih =>
      cases stack with
      | nil =>
          cases h with
          | @outermost _ f h => exact ⟨offset, rfl, toBlame_closing f.balanced_marks hordered⟩
      | cons opened stack =>
          rw [readBody_close]
          rw [List.append_cons] at hordered ⊢
          exact ih (h.closing offset) hordered
  | case5 offset c rest hquote hopen hclose ih =>
      rw [readBody_plain hquote hopen hclose]
      exact ih (h.congr rfl) hordered

end Awaits

/-- **Stylesheets and their braces.**  A stylesheet without its comments is read exactly if its braces
outside strings are balanced.  Then its rules and its at-rules with a body are the pairs of braces, in
the order of the opening ones, and each has as children the pairs directly inside it.  Otherwise the
first closing brace without partner is reported or, if there is none, the last opening one. -/
theorem Sheet.read_mirrors (css : String) :
    match Sheet.read css with
    | .ok sheet => Balanced (bracesFrom 0 (dropComments css.toList)) ∧
        ∃ f : Pairing, Mirrors sheet.blocks f ∧
          (f.pairs.Pairwise fun p q => p.1 < q.1) ∧
          (∀ p, p ∈ f.pairs ↔ Partners (bracesFrom 0 (dropComments css.toList)) p.1 p.2) ∧
          ∀ q p, f.Child q p ↔ DirectlyInside (bracesFrom 0 (dropComments css.toList)) q p
    | .error fault => ¬ Balanced (bracesFrom 0 (dropComments css.toList)) ∧
        ∃ place, fault = .unbalanced place ∧
          ToBlame (bracesFrom 0 (dropComments css.toList)) place := by
  have hordered := ordered_bracesFrom 0 (dropComments css.toList)
  have hnothing : Awaits [] {} [] := .outermost (f := .nil) .nil
  have hread := hnothing.read 0 (dropComments css.toList) hordered
  rw [Sheet.read_eq]
  cases hbody : readBody 0 .none [] {} (dropComments css.toList) with
  | error fault =>
      rw [hbody] at hread
      obtain ⟨place, rfl, hblame⟩ := hread
      exact ⟨hblame.not_balanced, place, rfl, hblame⟩
  | ok body =>
      rw [hbody] at hread
      obtain ⟨f, hmirrors, hmarks⟩ := hread
      change f.marks = bracesFrom 0 (dropComments css.toList) at hmarks
      rw [← hmarks] at hordered ⊢
      refine ⟨f.balanced_marks, f, ?_, Pairing.pairwise_pairs hordered,
        fun p => Pairing.mem_pairs_iff hordered, fun q p => Pairing.child_iff_directlyInside hordered⟩
      exact (mirrors_statements fun b => hasBody_of_mem_statements).append hmirrors

end Stencil.Style
