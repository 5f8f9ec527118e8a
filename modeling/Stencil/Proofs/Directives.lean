import Stencil.Proofs.Braces
import Stencil.Proofs.Unquoted

/-!
# Directives

At-rules without a block, each written with a semicolon behind it (`writeDirectives`), are read back
exactly if the text has no comment, no brace outside strings and no further semicolon
(`Sheet.read_directives`).  Strings protect braces only: a comment or a semicolon in a string is one
too.
-/

namespace Stencil.Style

open Stencil.Text

/-- An at-rule without a block. -/
structure Directive where
  name : String
  params : String

namespace Directive

/-- The at-rule as it is written, up to its semicolon. -/
def text (d : Directive) : List Char := '@' :: (d.name.toList ++ ' ' :: d.params.toList)

/-- The at-rule as it should be read. -/
def block (d : Directive) : Block := .atRule d.name d.params "" [] false

end Directive

/-- At-rules one after another. -/
def writeDirectives (ds : List Directive) : List Char := ds.flatMap fun d => d.text ++ [';']

/-- No brace stands outside strings. -/
def Braceless (q : Quoting) (cs : List Char) : Prop :=
  ∀ x ∈ placed q cs, x.2 = true → x.1 ≠ '\x7b' ∧ x.1 ≠ '\x7d'

/-- A comment with both its ends, wherever it stands. -/
def HasComment (cs : List Char) : Prop :=
  ∃ before inner after, cs = before ++ ['/', '*'] ++ (inner ++ ['*', '/'] ++ after)

instance (q : Quoting) (cs : List Char) : Decidable (Braceless q cs) :=
  inferInstanceAs (Decidable (∀ x ∈ placed q cs, x.2 = true → x.1 ≠ '\x7b' ∧ x.1 ≠ '\x7d'))

/-- The name ends where the blank behind it stands, and what follows is neither blank nor has blanks
around it. -/
structure Directive.Headed (d : Directive) : Prop where
  letters : ∀ c ∈ d.name.toList, isBlank c = false ∧ c ≠ '('
  nonempty : d.params ≠ ""
  trimmed : trim d.params = d.params

/-- An at-rule whose strings end and hold all its braces. -/
structure Directive.Closed (d : Directive) : Prop where
  marks : ∀ c ∈ d.name.toList, c ∉ ['"', '\'', '\x7b', '\x7d']
  closed : d.params.toList.foldl Quoting.step .none = .none
  braceless : Braceless .none d.params.toList

/-! ### Comments -/

section Comments

variable {cs : List Char}

/-- A text without a comment stays as it is. -/
theorem dropComments_of_not_hasComment (h : ¬ HasComment cs) : dropComments cs = cs := by
  rw [dropComments]
  split
  · rfl
  · next before after hstart =>
      split
      · rfl
      · next inner rest hstop =>
          refine absurd ⟨before, inner, rest, ?_⟩ h
          rw [← breakOn_eq hstop]
          exact breakOn_eq hstart

/-- Dropping comments leaves some of the characters, in order. -/
theorem dropComments_sublist (cs : List Char) : (dropComments cs).Sublist cs := by
  fun_induction dropComments cs with
  | case1 cs hstart => exact List.Sublist.refl _
  | case2 cs before after hstart hstop => exact List.Sublist.refl _
  | case3 cs before after hstart inner rest hstop _ ih =>
      rw [breakOn_eq hstart, List.append_assoc, breakOn_eq hstop, List.append_assoc]
      refine (List.Sublist.refl before).append ?_
      refine ih.trans (List.Sublist.trans ?_ (List.sublist_append_right _ _))
      exact (List.sublist_append_right _ _).trans (List.sublist_append_right _ _)

/-- A text that no comment can begin in has none. -/
theorem Uncommented.not_hasComment (h : Uncommented cs) : ¬ HasComment cs := by
  rintro ⟨before, inner, after, heq⟩
  exact h ⟨before, _, heq.symm⟩

/-- With a comment its two stars go. -/
theorem count_dropComments_lt (h : HasComment cs) :
    (dropComments cs).count '*' < cs.count '*' := by
  obtain ⟨before, inner, after, htext⟩ := h
  obtain ⟨front, back, hstart, tail, hback⟩ :=
    exists_breakOn ['/', '*'] before (inner ++ ['*', '/'] ++ after)
  obtain ⟨inside, rest, hstop, -⟩ := exists_breakOn ['*', '/'] (tail ++ inner) after
  have hback' : tail ++ inner ++ ['*', '/'] ++ after = back := by
    rw [← hback]
    simp
  rw [← htext] at hstart
  rw [hback'] at hstop
  have hkept : dropComments cs = front ++ dropComments rest := by
    rw [dropComments]
    split
    · next hnone => simp [hstart] at hnone
    · next hsome =>
        obtain ⟨rfl, rfl⟩ := Prod.mk.inj (Option.some.inj (hstart.symm.trans hsome))
        split
        · next hnone => simp [hstop] at hnone
        · next hsome' =>
            obtain ⟨rfl, rfl⟩ := Prod.mk.inj (Option.some.inj (hstop.symm.trans hsome'))
            rfl
  have hle := (dropComments_sublist rest).count_le '*'
  rw [hkept, breakOn_eq hstart, breakOn_eq hstop]
  simp only [List.count_append, List.count_cons, List.count_nil]
  simp
  omega

end Comments

/-! ### Bodies without blocks -/

section Bodies

variable {offset : Nat} {q : Quoting} {stack : List Opened} {body body' : Body} {cs : List Char}

/-- The text outside the blocks that are open. -/
def heldBy : List Opened → List Char
  | [] => []
  | opened :: stack => heldBy stack ++ opened.outer.finish

/-- Without braces all text belongs to the declarations. -/
theorem readBody_of_braceless (h : Braceless q cs) (offset : Nat) (body : Body) :
    readBody offset q [] body cs = .ok (body.write cs) := by
  induction cs generalizing offset q body with
  | nil => rfl
  | cons c rest ih =>
      obtain ⟨hc, hrest⟩ := List.forall_mem_cons.mp h
      have hplain := ih hrest (offset + c.utf8Size) (body.write [c])
      have hwrite : (body.write [c]).write rest = body.write (c :: rest) := by
        simp [Body.write]
      rw [hwrite] at hplain
      cases q with
      | none =>
          obtain ⟨hopen, hclose⟩ := hc rfl
          simpa [readBody, hopen, hclose, Body.write] using hplain
      | inside mark => exact hplain
      | escaped mark => exact hplain

/-- A body has no blocks only if there are no braces. -/
theorem braceless_of_readBody (h : readBody offset q stack body cs = .ok body')
    (hnone : body'.children = []) : stack = [] ∧ body.children = [] ∧ Braceless q cs := by
  induction cs generalizing offset q stack body with
  | nil =>
      cases stack with
      | nil =>
          obtain rfl : body = body' := by simpa [readBody] using h
          exact ⟨rfl, hnone, by simp [Braceless, placed]⟩
      | cons opened more => simp [readBody] at h
  | cons c rest ih =>
      have hplain : readBody (offset + c.utf8Size) (q.step c) stack
            { body with segment := c :: body.segment } rest = .ok body' →
          (q.isNone = true → c ≠ '\x7b' ∧ c ≠ '\x7d') →
          stack = [] ∧ body.children = [] ∧ Braceless q (c :: rest) := by
        intro hread hc
        obtain ⟨hstack, hbody, hrest⟩ := ih hread
        exact ⟨hstack, hbody, List.forall_mem_cons.mpr ⟨hc, hrest⟩⟩
      simp only [readBody] at h
      split at h
      · split at h
        · exact absurd (ih h).1 (List.cons_ne_nil _ _)
        · next hopen =>
            split at h
            · split at h
              · simp at h
              · exact absurd (ih h).2.1 (List.cons_ne_nil _ _)
            · next hclose =>
                refine hplain h fun _ => ⟨?_, ?_⟩
                · rintro rfl
                  exact hopen rfl
                · rintro rfl
                  exact hclose rfl
      · next hquoted =>
          refine hplain h fun hnone => ?_
          cases q with
          | none => exact absurd rfl hquoted
          | inside mark => simp [Quoting.isNone] at hnone
          | escaped mark => simp [Quoting.isNone] at hnone

/-- Only statements have no body, and they are not among the blocks of a body. -/
theorem hasBody_of_readBody (h : readBody offset q [] {} cs = .ok body') :
    ∀ b ∈ body'.children, b.hasBody = true := by
  refine readBody_forall (fun header declarations children _ => ?_) h (by simp) (by simp)
  unfold blockOf
  split
  · rfl
  · rfl

/-- What is written to a body is behind what it had. -/
theorem finish_write (body : Body) (cs : List Char) : (body.write cs).finish = body.finish ++ cs := by
  simp [Body.write, Body.finish]

/-- The declarations outside all blocks are what is left of the text if other parts of it are taken
away. -/
theorem finish_sublist (h : readBody offset q stack body cs = .ok body') :
    body'.finish.Sublist (heldBy stack ++ body.finish ++ cs) := by
  induction cs generalizing offset q stack body with
  | nil =>
      cases stack with
      | nil =>
          obtain rfl : body = body' := by simpa [readBody] using h
          simp [heldBy]
      | cons opened more => simp [readBody] at h
  | cons c rest ih =>
      have hplain : readBody (offset + c.utf8Size) (q.step c) stack
            { body with segment := c :: body.segment } rest = .ok body' →
          body'.finish.Sublist (heldBy stack ++ body.finish ++ c :: rest) := by
        intro hread
        have hone := finish_write body [c]
        have hrest : body'.finish.Sublist (heldBy stack ++ (body.write [c]).finish ++ rest) :=
          ih hread
        rw [hone] at hrest
        simpa using hrest
      simp only [readBody] at h
      split at h
      · split at h
        · -- what stood in front of the header is held, the header is not
          refine (ih h).trans ?_
          simp only [heldBy, Body.finish, List.reverse_nil, List.append_nil]
          refine ((List.Sublist.refl _).append ?_).append (List.sublist_cons_self c rest)
          refine (List.Sublist.refl _).append ?_
          exact List.take_sublist _ _
        · split at h
          · split at h
            · simp at h
            · next opened more =>
                refine (ih h).trans ?_
                refine List.Sublist.append ?_ (List.sublist_cons_self c rest)
                exact List.sublist_append_left _ _
          · exact hplain h
      · exact hplain h

end Bodies

/-! ### Statements -/

/-- The name of an at-rule and what follows it. -/
def Block.words : Block → List Char
  | .rule _ _ _ => []
  | .atRule name params _ _ _ => name.toList ++ params.toList

section Statements

variable {d : Directive} {ds : List Directive}

/-- The name and the rest of an at-rule are among its characters, in order. -/
theorem splitAtRule_sublist (cs : List Char) :
    ((splitAtRule cs).1.toList ++ (splitAtRule cs).2.toList).Sublist cs := by
  unfold splitAtRule
  simp only [String.toList_ofList]
  refine List.Sublist.trans ?_ (List.drop_sublist 1 cs)
  conv_rhs => rw [← (cs.drop 1).takeWhile_append_dropWhile
    (p := fun c => !(isBlank c || c == '('))]
  exact (List.Sublist.refl _).append (trimList_sublist _)

/-- All that stands in statements stands in the text, in the same order. -/
theorem words_statements_sublist (cs : List Char) :
    ((statements cs).flatMap Block.words).Sublist cs := by
  refine List.Sublist.trans ?_ (flatten_splitAt_sublist ';' cs)
  rw [statements]
  induction splitAt ';' cs with
  | nil => exact List.Sublist.refl _
  | cons piece pieces ih =>
      rw [List.map_cons, List.filterMap_cons, List.flatten_cons]
      split
      · exact ih.trans (List.sublist_append_right _ _)
      · next b hb =>
          have hwords : b.words.Sublist piece := by
            split at hb
            · obtain rfl := Option.some.inj hb
              exact (splitAtRule_sublist _).trans (trimList_sublist piece)
            · simp at hb
          rw [List.flatMap_cons]
          exact hwords.append ih

/-- No semicolon stands in a statement. -/
theorem notMem_words_of_mem_statements {cs : List Char} {b : Block} (hb : b ∈ statements cs) :
    ';' ∉ b.words := by
  obtain ⟨piece, hpiece, rfl⟩ := exists_of_mem_statements hb
  intro hmem
  refine notMem_of_mem_splitAt hpiece ?_
  exact mem_of_mem_trimList ((splitAtRule_sublist _).subset hmem)

/-- Written directives are cut where each one ends. -/
theorem statements_writeDirectives (ds : List Directive) :
    statements (writeDirectives ds) = ds.flatMap fun d => statements d.text := by
  induction ds with
  | nil => rfl
  | cons d rest ih =>
      rw [writeDirectives, List.flatMap_cons, List.append_assoc, List.singleton_append,
        statements_append, List.flatMap_cons, ← ih]
      rfl

/-- The words of a directive's block are its name and its parameters. -/
theorem Directive.words_block (d : Directive) : d.block.words = d.name.toList ++ d.params.toList :=
  rfl

/-- A directive has the characters of its words, beside the at sign and the space. -/
theorem Directive.mem_text {c : Char} (hc : c ≠ '@' ∧ c ≠ ' ') :
    c ∈ d.text ↔ c ∈ d.block.words := by
  rw [text, words_block]
  simp [hc]

/-- Outside the names and what follows them there are no stars. -/
theorem count_writeDirectives (ds : List Directive) :
    (writeDirectives ds).count '*' = ((ds.map Directive.block).flatMap Block.words).count '*' := by
  induction ds with
  | nil => rfl
  | cons d rest ih =>
      have hone : (d.text ++ [';']).count '*' = d.block.words.count '*' := by
        simp [Directive.text, Directive.words_block]
      rw [writeDirectives, List.flatMap_cons, List.count_append, hone, List.map_cons,
        List.flatMap_cons, List.count_append, ← ih]
      rfl

/-- A directive without further semicolons is one statement. -/
theorem Directive.Headed.statements_text (h : d.Headed) (hsemicolon : ';' ∉ d.text) :
    statements d.text = [d.block] := by
  have htrimmed := trimList_toList h.trimmed
  have hsplit : splitAtRule d.text = (d.name, d.params) := by
    rw [Directive.text, splitAtRule_append h.letters (by simp [isBlank]), trimList_cons_space,
      htrimmed, String.ofList_toList, String.ofList_toList]
  have hends : trimList d.text = d.text := by
    rw [trimList_eq_self_iff] at htrimmed ⊢
    refine ⟨by simp [Directive.text, isSpace], ?_⟩
    have hlast : d.text.getLast? = d.params.toList.getLast? := by
      have hne : d.params.toList ≠ [] := toList_ne_nil h.nonempty
      rw [Directive.text, ← List.cons_append, List.getLast?_append_of_ne_nil _ (by simp),
        List.getLast?_cons_of_ne_nil hne]
    rw [hlast]
    exact htrimmed.2
  rw [statements_of_notMem hsemicolon hends rfl, hsplit]
  rfl

end Statements

/-! ### Reading what was written -/

section Read

variable {ds : List Directive}

/-- Directives that are written are read as their statements. -/
theorem read_writeDirectives (hbraces : Braceless .none (writeDirectives ds))
    (hcomment : ¬ HasComment (writeDirectives ds)) :
    Sheet.read (String.ofList (writeDirectives ds)) =
      .ok ⟨ds.flatMap fun d => statements d.text⟩ := by
  rw [Sheet.read_eq, String.toList_ofList, dropComments_of_not_hasComment hcomment,
    readBody_of_braceless hbraces]
  simp only [finish_write]
  rw [← statements_writeDirectives]
  simp [Body.finish, Body.write]

/-- If directives are read back then there is nothing that could divide or hide them. -/
theorem Sheet.of_read_writeDirectives
    (hread : Sheet.read (String.ofList (writeDirectives ds)) = .ok ⟨ds.map Directive.block⟩) :
    Braceless .none (writeDirectives ds) ∧ ¬ HasComment (writeDirectives ds) ∧
      ∀ d ∈ ds, ';' ∉ d.text := by
  rw [Sheet.read_eq, String.toList_ofList] at hread
  cases hbody : readBody 0 .none [] {} (dropComments (writeDirectives ds)) with
  | error fault =>
      rw [hbody] at hread
      simp at hread
  | ok body =>
      rw [hbody] at hread
      have hblocks : statements body.finish ++ body.children.reverse =
          ds.map Directive.block := congrArg Sheet.blocks (Except.ok.inj hread)
      have hchildren : body.children = [] := by
        rw [List.eq_nil_iff_forall_not_mem]
        intro b hb
        have hmem : b ∈ ds.map Directive.block := by
          rw [← hblocks]
          exact List.mem_append_right _ (List.mem_reverse.mpr hb)
        obtain ⟨d, -, rfl⟩ := List.mem_map.mp hmem
        exact absurd (hasBody_of_readBody hbody _ hb) Bool.false_ne_true
      rw [hchildren, List.reverse_nil, List.append_nil] at hblocks
      obtain ⟨-, -, hbraces⟩ := braceless_of_readBody hbody hchildren
      have hcomment : ¬ HasComment (writeDirectives ds) := by
        -- all stars of the text are read, so none was in a comment
        intro hcomment
        have hlost := count_dropComments_lt hcomment
        have hfinish := (finish_sublist hbody).count_le '*'
        have hwords := (words_statements_sublist body.finish).count_le '*'
        have hall := count_writeDirectives ds
        rw [hblocks] at hwords
        simp only [heldBy, Body.finish, List.reverse_nil, List.append_nil,
          List.nil_append] at hfinish hwords
        omega
      rw [dropComments_of_not_hasComment hcomment] at hbraces
      refine ⟨hbraces, hcomment, fun d hd => ?_⟩
      have hmem : d.block ∈ statements body.finish := by
        rw [hblocks]
        exact List.mem_map_of_mem hd
      rw [Directive.mem_text (by decide)]
      exact notMem_words_of_mem_statements hmem

/-- Two texts joined are without braces exactly if the first is, and the second behind it. -/
theorem braceless_append {q : Quoting} {cs more : List Char} : Braceless q (cs ++ more) ↔
    Braceless q cs ∧ Braceless (cs.foldl Quoting.step q) more := by
  rw [Braceless, placed_append]
  exact List.forall_mem_append

/-- Such an at-rule begins and ends outside strings. -/
theorem Directive.Closed.braceless_text {d : Directive} (h : d.Closed) :
    Braceless .none (d.text ++ [';']) ∧ (d.text ++ [';']).foldl Quoting.step .none = .none := by
  have htext : d.text ++ [';'] = ('@' :: (d.name.toList ++ [' '])) ++ (d.params.toList ++ [';']) := by
    simp [Directive.text]
  have hfront : ∀ c ∈ '@' :: (d.name.toList ++ [' ']), c ∉ ['"', '\'', '\x7b', '\x7d'] := by
    refine List.forall_mem_cons.mpr ⟨by decide, List.forall_mem_append.mpr ⟨fun c hc => ?_, by simp⟩⟩
    have hmarks := h.marks c hc
    grind
  have hquoting : ('@' :: (d.name.toList ++ [' '])).foldl Quoting.step .none = .none :=
    foldl_step_of_unquoted fun c hc => by
      have hmarks := hfront c hc
      grind
  rw [htext, braceless_append, braceless_append, List.foldl_append, List.foldl_append, hquoting,
    h.closed]
  refine ⟨⟨fun x hx _ => ?_, h.braceless, ?_⟩, rfl⟩
  · have hmarks := hfront x.1 (mem_of_mem_placed hx)
    grind
  · simp [Braceless, placed]

/-- Closed directives are written without braces outside strings. -/
theorem braceless_writeDirectives (h : ∀ d ∈ ds, d.Closed) :
    Braceless .none (writeDirectives ds) := by
  induction ds with
  | nil => simp [Braceless, writeDirectives, placed]
  | cons d rest ih =>
      obtain ⟨hd, hrest⟩ := List.forall_mem_cons.mp h
      obtain ⟨hone, hquoting⟩ := hd.braceless_text
      rw [writeDirectives, List.flatMap_cons, braceless_append, hquoting]
      exact ⟨hone, ih hrest⟩

/-- **Directives and strings.**  Any list of directives is read back in its order, each without a
block, exactly if no brace stands outside strings, and no comment and no semicolon anywhere, be it in a
string or not.  If the strings of each directive end and hold all its braces, then no brace stands
outside strings.  And without such braces and without comments each directive is read as the
statements between its semicolons. -/
theorem Sheet.read_directives (h : ∀ d ∈ ds, d.Headed) :
    (Sheet.read (String.ofList (writeDirectives ds)) = .ok ⟨ds.map Directive.block⟩ ↔
      Braceless .none (writeDirectives ds) ∧ ¬ HasComment (writeDirectives ds) ∧
        ∀ d ∈ ds, ';' ∉ d.text) ∧
    ((∀ d ∈ ds, d.Closed) → Braceless .none (writeDirectives ds)) ∧
    (Braceless .none (writeDirectives ds) → ¬ HasComment (writeDirectives ds) →
      Sheet.read (String.ofList (writeDirectives ds)) =
        .ok ⟨ds.flatMap fun d => statements d.text⟩) := by
  refine ⟨⟨?_, ?_⟩, braceless_writeDirectives, read_writeDirectives⟩
  · exact Sheet.of_read_writeDirectives
  · rintro ⟨hbraces, hcomment, hsemicolon⟩
    have hblocks : (ds.flatMap fun d => statements d.text) = ds.map Directive.block := by
      rw [List.map_eq_flatMap]
      exact List.flatMap_congr fun d hd => (h d hd).statements_text (hsemicolon d hd)
    rw [read_writeDirectives hbraces hcomment, hblocks]

/-- Strings with braces and with an escaped quote, and an at-rule without strings. -/
def importDirectives : List Directive :=
  [⟨"import", "url('a\x7bb\x7d.css') screen"⟩, ⟨"layer", "a, b"⟩, ⟨"x-y", "\"\\\"\x7b\""⟩]

theorem Sheet.read_directives_imports :
    (∀ d ∈ importDirectives, d.Headed) ∧ (∀ d ∈ importDirectives, d.Closed) ∧
      Sheet.read (String.ofList (writeDirectives importDirectives)) =
        .ok ⟨importDirectives.map Directive.block⟩ := by
  have hheaded : ∀ d ∈ importDirectives, d.Headed := by
    refine List.forall_mem_cons.mpr ⟨?_, List.forall_mem_cons.mpr ⟨?_,
      List.forall_mem_singleton.mpr ?_⟩⟩
    all_goals exact ⟨by simp [isBlank], by decide, by decide +kernel⟩
  have hclosed : ∀ d ∈ importDirectives, d.Closed := by
    refine List.forall_mem_cons.mpr ⟨?_, List.forall_mem_cons.mpr ⟨?_,
      List.forall_mem_singleton.mpr ?_⟩⟩
    all_goals exact ⟨by simp, rfl, by decide +kernel⟩
  have huncommented : Uncommented (writeDirectives importDirectives) := by decide +kernel
  obtain ⟨hiff, hbraces, -⟩ := Sheet.read_directives hheaded
  refine ⟨hheaded, hclosed, hiff.mpr ⟨hbraces hclosed, huncommented.not_hasComment, ?_⟩⟩
  decide +kernel

/-- A semicolon in the string of an import ends the import, and the rest is no at-rule. -/
theorem Sheet.read_import_cut :
    (Directive.mk "import" "\"a;b\"").Headed ∧ (Directive.mk "import" "\"a;b\"").Closed ∧
      Sheet.read (String.ofList (writeDirectives [⟨"import", "\"a;b\""⟩])) =
        .ok ⟨[.atRule "import" "\"a" "" [] false]⟩ ∧
      Sheet.read (String.ofList (writeDirectives [⟨"import", "\"a;b\""⟩])) ≠
        .ok ⟨[Directive.block ⟨"import", "\"a;b\""⟩]⟩ := by
  have hread : Sheet.read (String.ofList (writeDirectives [⟨"import", "\"a;b\""⟩])) =
      .ok ⟨[.atRule "import" "\"a" "" [] false]⟩ := by
    rw [Sheet.read_eq, String.toList_ofList, dropComments_of_uncommented (by decide +kernel)]
    decide +kernel
  refine ⟨⟨by simp [isBlank], by decide, by decide +kernel⟩, ⟨by simp, rfl, by decide +kernel⟩,
    hread, ?_⟩
  rw [hread]
  decide +kernel

end Read

end Stencil.Style
