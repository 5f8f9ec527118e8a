import Mathlib.Data.List.Chain
import Mathlib.Data.List.Infix
import Mathlib.Tactic.MkIffOfInductiveProp
import Stencil.Proofs.OnePass
import Stencil.Proofs.Texts
import Stencil.Style.Print

/-!
# Stylesheets round trip

A flat stylesheet whose texts are written as the printer writes them is read back from what it is
printed as (`Sheet.Canonical.read_print`).  Reading goes from left to right with the open blocks on
a stack; `Reads` says what a piece of text does to the innermost body, whatever is around it and
behind it, so the text of a block is put together from the pieces it is printed from
(`Block.Canonical.reads`).
-/

namespace Stencil.Style

open Stencil.Text

/-- Whether a text ends its strings and has no brace outside them and no backslash; it starts
outside strings or inside one with the given mark. -/
def isSealed : Option Char → List Char → Bool
  | quote, [] => quote.isNone
  | some mark, c :: rest => c != '\\' && isSealed (if c == mark then none else some mark) rest
  | none, c :: rest =>
      c != '\x7b' && c != '\x7d' && c != '\\' &&
        isSealed (if c == '"' || c == '\'' then some c else none) rest

/-- Whether a text closes its brackets and strings and has no comma outside them. -/
def isSingle : Nest → List Char → Bool
  | n, [] => n.isTop
  | n, c :: rest => !(c == ',' && n.isTop) && isSingle (n.step c) rest

/-- No comment starts in the text. -/
def Uncommented (cs : List Char) : Prop := ¬ ['/', '*'] <:+: cs

/-- A text that can stand anywhere in a stylesheet without ending what is around it. -/
@[mk_iff]
structure Plain (text : String) : Prop where
  closed : isSealed none text.toList = true
  uncommented : Uncommented text.toList

/-- A selector as it is printed.  A semicolon would end what is before it even inside a string. -/
@[mk_iff]
structure PrintedSelector (text : String) : Prop where
  plain : Plain text
  nonempty : text ≠ ""
  trimmed : trim text = text
  minified : minifySelector text = text
  single : isSingle {} text.toList = true
  semicolon : ';' ∉ text.toList
  at_ : text.toList.head? ≠ some '@'

/-- The declarations of a block as they are printed. -/
@[mk_iff]
structure PrintedDeclarations (text : String) : Prop where
  plain : Plain text
  nonempty : text ≠ ""
  minified : minifyDeclarations text = text

/-- Whether a character can stand in the name of an at-rule. -/
def isHeadLetter (c : Char) : Bool :=
  !(isSpace c || ['(', ';', '"', '\'', '\x7b', '\x7d', '\\'].contains c)

/-- The name of an at-rule and what follows it as they are printed. -/
@[mk_iff]
structure PrintedHead (name params : String) : Prop where
  letters : name.toList.all isHeadLetter = true
  uncommented : Uncommented name.toList
  plain : Plain params
  trimmed : trim params = params
  minified : minifyDeclarations params = params
  semicolon : ';' ∉ params.toList

instance (cs : List Char) : Decidable (Uncommented cs) :=
  inferInstanceAs (Decidable (¬ ['/', '*'] <:+: cs))

instance (text : String) : Decidable (Plain text) := decidable_of_iff _ (plain_iff text).symm

instance (text : String) : Decidable (PrintedSelector text) :=
  decidable_of_iff _ (printedSelector_iff text).symm

instance (text : String) : Decidable (PrintedDeclarations text) :=
  decidable_of_iff _ (printedDeclarations_iff text).symm

instance (name params : String) : Decidable (PrintedHead name params) :=
  decidable_of_iff _ (printedHead_iff name params).symm

/-- A rule, or an at-rule with either declarations or blocks inside, as it is printed. -/
inductive Block.Canonical : Block → Prop
  | rule {selectors : List String} {declarations : String} (hne : selectors ≠ [])
      (hselectors : ∀ s ∈ selectors, PrintedSelector s)
      (hdeclarations : PrintedDeclarations declarations) :
      Canonical (.rule selectors declarations [])
  | declares {name params declarations : String} (hhead : PrintedHead name params)
      (hdeclarations : PrintedDeclarations declarations) :
      Canonical (.atRule name params declarations [] true)
  | nests {name params : String} {children : List Block} (hhead : PrintedHead name params)
      (hne : children ≠ []) (hchildren : ∀ b ∈ children, Canonical b) :
      Canonical (.atRule name params "" children true)

/-- An at-rule without a body, as it is printed. -/
inductive Block.Statement : Block → Prop
  | mk {name params : String} (hhead : PrintedHead name params) :
      Statement (.atRule name params "" [] false)

/-- A flat stylesheet as it is printed: statements first, then blocks. -/
def Sheet.Canonical (s : Sheet) : Prop :=
  ∃ statements blocks, s.blocks = statements ++ blocks ∧ (∀ b ∈ statements, b.Statement) ∧
    ∀ b ∈ blocks, b.Canonical

/-! ### Texts -/

/-- What is sealed leaves nothing open for the rest of the text. -/
theorem isSealed_append {quote : Option Char} {cs : List Char} (h : isSealed quote cs = true)
    (rest : List Char) : isSealed quote (cs ++ rest) = isSealed none rest := by
  induction cs generalizing quote with
  | nil =>
      obtain rfl : quote = none := by simpa [isSealed] using h
      rfl
  | cons c more ih =>
      cases quote with
      | none =>
          simp only [isSealed, Bool.and_eq_true] at h
          simp only [List.cons_append, isSealed, h.1, ih h.2, Bool.true_and]
      | some mark =>
          simp only [isSealed, Bool.and_eq_true] at h
          simp only [List.cons_append, isSealed, h.1, ih h.2, Bool.true_and]

/-- No comment starts in a text exactly if no `/` stands before a `*`. -/
theorem uncommented_iff {cs : List Char} :
    Uncommented cs ↔ cs.IsChain fun a b => ¬ (a = '/' ∧ b = '*') := by
  rw [List.isChain_iff_forall_rel_of_append_cons_cons]
  constructor
  · rintro h a b before after rfl ⟨rfl, rfl⟩
    exact h ⟨before, after, by simp⟩
  · rintro h ⟨before, after, rfl⟩
    exact @h '/' '*' before after (by simp) ⟨rfl, rfl⟩

/-- The empty text has no comment. -/
theorem Uncommented.nil : Uncommented [] := by
  simp [Uncommented]

/-- No comment starts around a character that is no part of a comment mark. -/
theorem Uncommented.around {cs rest : List Char} {c : Char} (hcs : Uncommented cs)
    (hrest : Uncommented rest) (hc : c ≠ '/' ∧ c ≠ '*') : Uncommented (cs ++ c :: rest) := by
  rw [uncommented_iff] at hcs hrest ⊢
  rw [List.isChain_append]
  refine ⟨hcs, ?_, ?_⟩
  · rw [List.isChain_cons]
    exact ⟨fun d _ hmark => hc.1 hmark.1, hrest⟩
  · rintro a - b hb ⟨-, hmark⟩
    obtain rfl : c = b := by simpa using hb
    exact hc.2 hmark

/-- A text without comments is read as it is. -/
theorem dropComments_of_uncommented {cs : List Char} (h : Uncommented cs) :
    dropComments cs = cs := by
  have hnone : breakOn ['/', '*'] cs = none := by
    rw [Option.eq_none_iff_forall_ne_some]
    rintro ⟨before, after⟩ hsome
    exact h ⟨before, after, (breakOn_eq hsome).symm⟩
  rw [dropComments]
  split
  · rfl
  · next hsome =>
      rw [hnone] at hsome
      simp at hsome

/-! ### Headers -/

/-- At the top nothing is open. -/
theorem Nest.eq_of_isTop {n : Nest} (h : n.isTop = true) : n = {} := by
  obtain ⟨depth, quote⟩ := n
  simp only [isTop, Bool.and_eq_true, beq_iff_eq, Option.isNone_iff_eq_none] at h
  rw [h.1, h.2]

/-- Text without a comma at the top goes to the front of the first piece. -/
theorem commaPieces_append {n : Nest} {cs : List Char} (h : isSingle n cs = true)
    {rest piece : List Char} {pieces : List (List Char)}
    (hrest : commaPieces {} rest = piece :: pieces) :
    commaPieces n (cs ++ rest) = (cs ++ piece) :: pieces := by
  induction cs generalizing n with
  | nil => rw [Nest.eq_of_isTop h, List.nil_append, hrest, List.nil_append]
  | cons c more ih =>
      simp only [isSingle, Bool.and_eq_true, Bool.not_eq_true'] at h
      rw [List.cons_append, commaPieces, h.1, if_neg Bool.false_ne_true, ih h.2]
      rfl

/-- A joined list starts with its first text and a comma. -/
theorem toList_joinWith_cons_cons (first next : String) (more : List String) :
    (joinWith "," (first :: next :: more)).toList =
      first.toList ++ ',' :: (joinWith "," (next :: more)).toList := by
  simp [joinWith, String.intercalate_cons_cons]

/-- The selectors of a list that was printed are read back. -/
theorem splitSelectors_joinWith {selectors : List String} (hne : selectors ≠ [])
    (h : ∀ s ∈ selectors, PrintedSelector s) :
    splitSelectors (joinWith "," selectors) = selectors := by
  have hpieces : commaPieces {} (joinWith "," selectors).toList =
      selectors.map String.toList := by
    induction selectors with
    | nil => exact absurd rfl hne
    | cons s rest ih =>
        obtain ⟨hs, hrest⟩ := List.forall_mem_cons.mp h
        cases rest with
        | nil =>
            have hlast : commaPieces {} (s.toList ++ []) = [s.toList ++ []] :=
              commaPieces_append hs.single rfl
            simpa [joinWith] using hlast
        | cons next more =>
            have htail := ih (by simp) hrest
            have hcomma : commaPieces {} (',' :: (joinWith "," (next :: more)).toList) =
                [] :: (next :: more).map String.toList := by
              rw [commaPieces, if_pos (by rfl), htail]
            rw [toList_joinWith_cons_cons, commaPieces_append hs.single hcomma, List.append_nil]
            rfl
  have htrimmed : selectors.map ((fun piece => String.ofList (trimList piece)) ∘ String.toList) =
      selectors :=
    (List.map_congr_left (g := id) fun s hs => (h s hs).trimmed).trans selectors.map_id
  rw [splitSelectors, hpieces, List.map_map, htrimmed, List.filter_eq_self]
  intro s hs
  simpa using (h s hs).nonempty

/-- What a head must satisfy to be found again in front of a brace or a semicolon. -/
structure IsHead (cs : List Char) : Prop where
  closed : isSealed none cs = true
  uncommented : Uncommented cs
  trimmed : trimList cs = cs
  semicolon : ';' ∉ cs

/-- The head of an at-rule. -/
def atRuleHead (name params : String) : List Char :=
  '@' :: (name.toList ++ if params.isEmpty then [] else ' ' :: params.toList)

/-- A text that is not empty has a character. -/
theorem toList_ne_nil {text : String} (h : text ≠ "") : text.toList ≠ [] := by
  simpa using h

/-- Two heads with a comma or a space between them are a head. -/
theorem IsHead.join {cs rest : List Char} {c : Char} (hcs : IsHead cs) (hrest : IsHead rest)
    (hne : cs ≠ []) (hrest' : rest ≠ []) (hc : c = ',' ∨ c = ' ') : IsHead (cs ++ c :: rest) := by
  have hmark : isSealed none (c :: rest) = isSealed none rest ∧ (c ≠ '/' ∧ c ≠ '*') ∧ ';' ≠ c := by
    rcases hc with rfl | rfl <;> simp [isSealed]
  obtain ⟨hclosed, hcomment, hsemicolon⟩ := hmark
  refine ⟨?_, hcs.uncommented.around hrest.uncommented hcomment, ?_, ?_⟩
  · rw [isSealed_append hcs.closed, hclosed]
    exact hrest.closed
  · rw [trimList_eq_self_iff, List.head?_append_of_ne_nil _ hne, List.getLast?_append_of_ne_nil _
      (by simp), List.getLast?_cons_of_ne_nil hrest']
    exact ⟨(trimList_eq_self_iff.mp hcs.trimmed).1, (trimList_eq_self_iff.mp hrest.trimmed).2⟩
  · simp [hcs.semicolon, hrest.semicolon, hsemicolon]

/-- A printed selector is a head. -/
theorem PrintedSelector.isHead {text : String} (h : PrintedSelector text) : IsHead text.toList :=
  ⟨h.plain.closed, h.plain.uncommented, trimList_toList h.trimmed, h.semicolon⟩

/-- Printed selectors with commas between them are a head. -/
theorem isHead_joinWith {selectors : List String} (hne : selectors ≠ [])
    (h : ∀ s ∈ selectors, PrintedSelector s) :
    IsHead (joinWith "," selectors).toList ∧ (joinWith "," selectors).toList ≠ [] := by
  induction selectors with
  | nil => exact absurd rfl hne
  | cons s rest ih =>
      obtain ⟨hs, hrest⟩ := List.forall_mem_cons.mp h
      have hfirst := toList_ne_nil hs.nonempty
      cases rest with
      | nil => simpa [joinWith] using And.intro hs.isHead hs.nonempty
      | cons next more =>
          obtain ⟨htail, htail'⟩ := ih (by simp) hrest
          rw [toList_joinWith_cons_cons]
          exact ⟨hs.isHead.join htail hfirst htail' (.inl rfl), by simp⟩

/-- A text without quotes, braces and backslashes is sealed. -/
theorem isSealed_of_forall {cs : List Char}
    (h : ∀ c ∈ cs, c ∉ ['"', '\'', '\x7b', '\x7d', '\\']) : isSealed none cs = true := by
  induction cs with
  | nil => rfl
  | cons c rest ih =>
      obtain ⟨hc, hrest⟩ := List.forall_mem_cons.mp h
      simp only [List.mem_cons, List.not_mem_nil, or_false, not_or] at hc
      simp [isSealed, hc, ih hrest]

/-- The name of an at-rule has no character that ends it. -/
theorem PrintedHead.of_mem {name params : String} (h : PrintedHead name params) {c : Char}
    (hc : c ∈ name.toList) :
    isSpace c = false ∧ c ∉ ['(', ';', '"', '\'', '\x7b', '\x7d', '\\'] := by
  have hletter := List.all_eq_true.mp h.letters c hc
  rw [isHeadLetter, Bool.not_eq_true', Bool.or_eq_false_iff, List.contains_eq_mem,
    decide_eq_false_iff_not] at hletter
  exact hletter

/-- The head of a printed at-rule is a head. -/
theorem PrintedHead.isHead {name params : String} (h : PrintedHead name params) :
    IsHead (atRuleHead name params) := by
  have hname : IsHead ('@' :: name.toList) := by
    refine ⟨?_, Uncommented.nil.around h.uncommented (by decide), ?_, ?_⟩
    · refine isSealed_of_forall (List.forall_mem_cons.mpr ⟨by decide, fun c hc => ?_⟩)
      have := (h.of_mem hc).2
      grind
    · refine trimList_eq_self_iff.mpr ⟨by simp; decide, fun c hc => ?_⟩
      rcases List.mem_cons.mp (List.mem_of_getLast? hc) with rfl | hc
      · decide
      · exact (h.of_mem hc).1
    · intro hmem
      rcases List.mem_cons.mp hmem with hc | hc
      · simp at hc
      · exact (h.of_mem hc).2 (by decide)
  unfold atRuleHead
  split
  · simpa using hname
  · next hne =>
      have hparams : IsHead params.toList :=
        ⟨h.plain.closed, h.plain.uncommented, trimList_toList h.trimmed, h.semicolon⟩
      exact hname.join hparams (by simp) (toList_ne_nil (by simpa using hne)) (.inr rfl)

/-- The name of an at-rule ends at a blank or an opening parenthesis. -/
theorem splitAtRule_append {name rest : List Char} (hname : ∀ c ∈ name, isBlank c = false ∧ c ≠ '(')
    (hrest : ∀ c ∈ rest.head?, isBlank c = true ∨ c = '(') :
    splitAtRule ('@' :: (name ++ rest)) = (String.ofList name, String.ofList (trimList rest)) := by
  have hkept : ∀ c ∈ name, (!(isBlank c || c == '(')) = true := by
    intro c hc
    simp [hname c hc]
  have hstop : rest.takeWhile (fun c => !(isBlank c || c == '(')) = [] ∧
      rest.dropWhile (fun c => !(isBlank c || c == '(')) = rest := by
    cases rest with
    | nil => simp
    | cons c more =>
        have hc : ¬ (!(isBlank c || c == '(')) = true := by
          rw [Bool.not_eq_true', Bool.not_eq_false, Bool.or_eq_true, beq_iff_eq]
          exact hrest c rfl
        exact ⟨List.takeWhile_cons_of_neg hc, List.dropWhile_cons_of_neg hc⟩
  unfold splitAtRule
  simp only [List.drop_one, List.tail_cons, List.takeWhile_append_of_pos hkept,
    List.dropWhile_append_of_pos hkept, hstop, List.append_nil]

/-- The head of a printed at-rule is divided into its name and its parameters. -/
theorem PrintedHead.splitAtRule_head {name params : String} (h : PrintedHead name params) :
    splitAtRule (atRuleHead name params) = (name, params) := by
  have hname : ∀ c ∈ name.toList, isBlank c = false ∧ c ≠ '(' := by
    intro c hc
    obtain ⟨hspace, hother⟩ := h.of_mem hc
    refine ⟨?_, by grind⟩
    rw [Bool.eq_false_iff]
    intro hblank
    rw [isSpace_of_isBlank hblank] at hspace
    simp at hspace
  unfold atRuleHead
  split
  · next hempty =>
      rw [splitAtRule_append hname (by simp), String.isEmpty_iff.mp hempty, String.ofList_toList]
      rfl
  · rw [splitAtRule_append hname (by simp [isBlank]), trimList_cons_space,
      trimList_toList h.trimmed, String.ofList_toList, String.ofList_toList]

/-! ### Reading pieces -/

/-- Inside a string with the given mark, or outside all strings. -/
def Quoting.of : Option Char → Quoting
  | .none => .none
  | .some mark => .inside mark

/-- What a piece of text does to the innermost body, wherever it stands, whatever blocks are open
around it and whatever follows it. -/
def Reads (cs : List Char) (body body' : Body) : Prop :=
  ∀ offset stack rest, readBody offset .none stack body (cs ++ rest) =
    readBody (offset + byteSize cs) .none stack body' rest

/-- The body with more text in front of the next block. -/
def Body.write (body : Body) (cs : List Char) : Body :=
  { body with segment := cs.reverse ++ body.segment }

/-- The body with a block more; the text since the last block belongs to the declarations. -/
def Body.put (body : Body) (b : Block) : Body :=
  { declarations := body.finish, segment := [], children := b :: body.children }

/-- A new block can start here: the text since the last one ends with a semicolon. -/
def Body.Ready (body : Body) : Prop := ∀ c ∈ body.segment.head?, c = ';'

section Reads

variable {cs more : List Char} {body body' body'' : Body}

/-- What is read of two texts is read of both together. -/
theorem Reads.trans (h : Reads cs body body') (h' : Reads more body' body'') :
    Reads (cs ++ more) body body'' := by
  intro offset stack rest
  rw [List.append_assoc, h, h', byteSize_append, Nat.add_assoc]

/-- A sealed text is read into the body that is open. -/
theorem readBody_isSealed {quote : Option Char} (h : isSealed quote cs = true) (offset : Nat)
    (stack : List Opened) (body : Body) (rest : List Char) :
    readBody offset (.of quote) stack body (cs ++ rest) =
      readBody (offset + byteSize cs) .none stack (body.write cs) rest := by
  induction cs generalizing quote offset body with
  | nil =>
      obtain rfl : quote = none := by simpa [isSealed] using h
      rfl
  | cons c tail ih =>
      have hwrite : (body.write [c]).write tail = body.write (c :: tail) := by
        simp [Body.write]
      cases quote with
      | none =>
          simp only [isSealed, Bool.and_eq_true, bne_iff_ne] at h
          obtain ⟨⟨⟨hopen, hclose⟩, hescape⟩, htail⟩ := h
          have hstep : (Quoting.none.step c) =
              .of (if c == '"' || c == '\'' then some c else none) := by
            simp only [Quoting.step]
            split <;> rfl
          have := ih htail (offset + c.utf8Size) (body.write [c])
          rw [← hstep, hwrite] at this
          simpa [readBody, Quoting.of, hopen, hclose, Body.write, Nat.add_assoc] using this
      | some mark =>
          simp only [isSealed, Bool.and_eq_true, bne_iff_ne] at h
          obtain ⟨hescape, htail⟩ := h
          have hstep : (Quoting.inside mark).step c =
              .of (if c == mark then none else some mark) := by
            simp only [Quoting.step, beq_iff_eq, hescape, if_false]
            split <;> rfl
          have := ih htail (offset + c.utf8Size) (body.write [c])
          rw [← hstep, hwrite] at this
          simpa [readBody, Quoting.of, Body.write, Nat.add_assoc] using this

/-- A sealed text outside strings is read as text. -/
theorem Reads.text (h : isSealed none cs = true) (body : Body) :
    Reads cs body (body.write cs) :=
  fun offset stack rest => readBody_isSealed h offset stack body rest

/-- What stands behind the last semicolon is found again. -/
theorem splitLast_append {before : List Char} (hbefore : ∀ c ∈ before.getLast?, c = ';')
    (hcs : ';' ∉ cs) : splitLast (before ++ cs) = (before, cs) := by
  have hnone : before.reverse.takeWhile (· != ';') = [] := by
    cases hreverse : before.reverse with
    | nil => rfl
    | cons c rest =>
        have hlast : before.getLast? = some c := by
          rw [← List.head?_reverse, hreverse, List.head?_cons]
        simp [hbefore c hlast]
  have hafter : (before ++ cs).reverse.takeWhile (· != ';') = cs.reverse := by
    rw [List.reverse_append, List.takeWhile_append_of_pos, hnone, List.append_nil]
    intro c hc
    rw [bne_iff_ne]
    rintro rfl
    exact hcs (List.mem_reverse.mp hc)
  rw [splitLast, hafter]
  simp

/-- An opening brace opens a body inside the one that is open. -/
theorem readBody_open (offset : Nat) (stack : List Opened) (body : Body) (rest : List Char) :
    readBody offset .none stack body ('\x7b' :: rest) =
      readBody (offset + 1) .none
        (⟨{ body with
              declarations := body.declarations ++ (splitLast body.segment.reverse).1
              segment := [] },
          trimList (splitLast body.segment.reverse).2, offset⟩ :: stack) {} rest :=
  rfl

/-- A closing brace puts the finished body into the one around it. -/
theorem readBody_close (offset : Nat) (opened : Opened) (stack : List Opened) (body : Body)
    (rest : List Char) :
    readBody offset .none (opened :: stack) body ('\x7d' :: rest) =
      readBody (offset + 1) .none stack
        { opened.outer with
          children := blockOf opened.header body.finish body.children.reverse ::
            opened.outer.children } rest :=
  rfl

/-- **A block.**  Its head, a brace, what fills it and a brace add it to the body around it. -/
theorem Reads.block {head inner : List Char} {inside : Body} (hhead : IsHead head)
    (hready : body.Ready) (hinner : Reads inner {} inside) :
    Reads (head ++ '\x7b' :: (inner ++ ['\x7d'])) body
      (body.put (blockOf head inside.finish inside.children.reverse)) := by
  intro offset stack rest
  have hsplit : splitLast (body.write head).segment.reverse = (body.segment.reverse, head) := by
    rw [Body.write, List.reverse_append, List.reverse_reverse]
    refine splitLast_append ?_ hhead.semicolon
    rw [List.getLast?_reverse]
    exact hready
  simp only [List.append_assoc, List.cons_append, List.nil_append]
  rw [Reads.text hhead.closed body, readBody_open, hsplit, hinner, readBody_close, hhead.trimmed]
  have hoffset : offset + byteSize (head ++ '\x7b' :: (inner ++ ['\x7d'])) =
      offset + byteSize head + 1 + byteSize inner + 1 := by
    simp only [byteSize_append, byteSize_cons, byteSize_nil]
    have hopen : '\x7b'.utf8Size = 1 := by decide
    have hclose : '\x7d'.utf8Size = 1 := by decide
    omega
  rw [hoffset]
  rfl

end Reads

/-! ### Printed blocks -/

/-- What stands before the brace of a block. -/
def Block.head : Block → List Char
  | .rule selectors _ _ => (joinWith "," selectors).toList
  | .atRule name params _ _ _ => atRuleHead name params

/-- What fills a block. -/
def Block.inner : Block → List Char
  | .rule _ declarations _ => declarations.toList
  | .atRule _ _ declarations children _ => declarations.toList ++ (printBlocks children).toList

/-- The name of an at-rule and what follows it, as they are printed. -/
def atRuleText (name params : String) : String :=
  "@" ++ name ++
    (if (minifyDeclarations params).isEmpty then "" else " " ++ minifyDeclarations params)

/-- What an at-rule with a body is printed as, if there is anything in it. -/
theorem printBlock_braced (name params : String) {declarations : String} {children : List Block}
    (h : minifyDeclarations declarations ≠ "" ∨ printBlocks children ≠ "") :
    printBlock (.atRule name params declarations children true) =
      atRuleText name params ++ "\x7b" ++ minifyDeclarations declarations ++
        (if (minifyDeclarations declarations).isEmpty || (printBlocks children).isEmpty then ""
          else ";") ++ printBlocks children ++ "\x7d" := by
  have hsome : ((minifyDeclarations declarations).isEmpty && (printBlocks children).isEmpty) =
      false := by
    rcases h with h | h <;> simp [h]
  simp only [printBlock, hsome, Bool.not_true, Bool.false_eq_true, if_false]
  rfl

/-- The text of a printed at-rule is its head. -/
theorem PrintedHead.toList_atRuleText {name params : String} (h : PrintedHead name params) :
    (atRuleText name params).toList = atRuleHead name params := by
  rw [atRuleText, h.minified, atRuleHead]
  split <;> simp

/-- A printed at-rule is its head and what is between its braces. -/
theorem PrintedHead.toList_printBlock {name params declarations : String} {children : List Block}
    (h : PrintedHead name params) (hminified : minifyDeclarations declarations = declarations)
    (hsome : declarations ≠ "" ∨ printBlocks children ≠ "")
    (hone : declarations.isEmpty = true ∨ (printBlocks children).isEmpty = true) :
    (printBlock (.atRule name params declarations children true)).toList =
      atRuleHead name params ++
        '\x7b' :: (declarations.toList ++ (printBlocks children).toList ++ ['\x7d']) := by
  rw [printBlock_braced name params (by rwa [hminified]), hminified,
    if_pos (Bool.or_eq_true_iff.mpr hone)]
  simp [h.toList_atRuleText]

/-- A block is printed as its head and, in braces, what fills it. -/
theorem Block.Canonical.toList_printBlock {b : Block} (h : b.Canonical) :
    (printBlock b).toList = b.head ++ '\x7b' :: (b.inner ++ ['\x7d']) := by
  induction h with
  | rule hne hselectors hdeclarations =>
      have hmap := List.map_congr_left (g := id) fun s hs => (hselectors s hs).minified
      rw [List.map_id] at hmap
      simp [printBlock, hdeclarations.minified, hdeclarations.nonempty, hne, hmap, head, inner]
  | declares hhead hdeclarations =>
      exact hhead.toList_printBlock hdeclarations.minified
        (.inl hdeclarations.nonempty) (.inr rfl)
  | @nests name params children hhead hne hchildren ih =>
      -- the first block inside is printed with its braces, so the body is not empty
      obtain ⟨first, rest, rfl⟩ := List.exists_cons_of_ne_nil hne
      have hprinted : (printBlocks (first :: rest)).toList ≠ [] := by
        rw [printBlocks, String.toList_append, ih first List.mem_cons_self]
        simp
      exact hhead.toList_printBlock (by decide) (.inr (by simpa using hprinted)) (.inl rfl)

/-- Heads of canonical blocks are heads. -/
theorem Block.Canonical.isHead {b : Block} (h : b.Canonical) : IsHead b.head := by
  cases h with
  | rule hne hselectors hdeclarations => exact (isHead_joinWith hne hselectors).1
  | declares hhead hdeclarations => exact hhead.isHead
  | nests hhead hne hchildren => exact hhead.isHead

/-- Printed blocks have no comment if each of them has none. -/
theorem uncommented_printBlocks {bs : List Block} {rest : List Char}
    (h : ∀ b ∈ bs, ∀ rest, Uncommented rest → Uncommented ((printBlock b).toList ++ rest))
    (hrest : Uncommented rest) : Uncommented ((printBlocks bs).toList ++ rest) := by
  induction bs with
  | nil => simpa [printBlocks] using hrest
  | cons b more ih =>
      obtain ⟨hb, hmore⟩ := List.forall_mem_cons.mp h
      rw [printBlocks, String.toList_append, List.append_assoc]
      exact hb _ (ih hmore)

/-- No comment starts in a printed block. -/
theorem Block.Canonical.uncommented {b : Block} (h : b.Canonical) {rest : List Char}
    (hrest : Uncommented rest) : Uncommented ((printBlock b).toList ++ rest) := by
  have hblock {b : Block} (h : b.Canonical) {rest : List Char}
      (hinner : Uncommented (b.inner ++ '\x7d' :: rest)) :
      Uncommented ((printBlock b).toList ++ rest) := by
    rw [h.toList_printBlock]
    simpa using h.isHead.uncommented.around hinner (c := '\x7b') (by decide)
  induction h generalizing rest with
  | rule hne hselectors hdeclarations =>
      refine hblock (.rule hne hselectors hdeclarations) ?_
      simpa [inner] using hdeclarations.plain.uncommented.around hrest (by decide)
  | declares hhead hdeclarations =>
      refine hblock (.declares hhead hdeclarations) ?_
      simpa [inner, printBlocks] using hdeclarations.plain.uncommented.around hrest (by decide)
  | nests hhead hne hchildren ih =>
      refine hblock (.nests hhead hne hchildren) ?_
      have hend := Uncommented.nil.around hrest (c := '\x7d') (by decide)
      simpa [inner] using uncommented_printBlocks (fun b hb rest => ih b hb) hend

/-- A block under printed selectors is a rule with these selectors. -/
theorem blockOf_joinWith {selectors : List String} (hne : selectors ≠ [])
    (h : ∀ s ∈ selectors, PrintedSelector s) (declarations : List Char) (children : List Block) :
    blockOf (joinWith "," selectors).toList declarations children =
      .rule selectors (String.ofList declarations) children := by
  have hhead : ((joinWith "," selectors).toList.head? == some '@') = false := by
    obtain ⟨first, rest, rfl⟩ := List.exists_cons_of_ne_nil hne
    have hfirst := h first List.mem_cons_self
    have hsame : (joinWith "," (first :: rest)).toList.head? = first.toList.head? := by
      cases rest with
      | nil => simp [joinWith]
      | cons next more =>
          rw [toList_joinWith_cons_cons,
            List.head?_append_of_ne_nil _ (toList_ne_nil hfirst.nonempty)]
    rw [hsame, beq_eq_false_iff_ne]
    exact hfirst.at_
  rw [blockOf, hhead, if_neg Bool.false_ne_true, String.ofList_toList,
    splitSelectors_joinWith hne h]

/-- A block under the head of an at-rule is this at-rule. -/
theorem PrintedHead.blockOf {name params : String} (h : PrintedHead name params)
    (declarations : List Char) (children : List Block) :
    blockOf (atRuleHead name params) declarations children =
      .atRule name params (String.ofList declarations) children true := by
  rw [Style.blockOf, h.splitAtRule_head]
  rfl

section Put

variable {body : Body}

/-- A body is ready for the next block when one was put into it. -/
theorem Body.ready_put (body : Body) (b : Block) : (body.put b).Ready := by
  simp [Ready, put]

/-- Putting blocks into a body leaves its declarations as they are. -/
theorem Body.finish_foldl_put (body : Body) (bs : List Block) :
    (bs.foldl Body.put body).finish = body.finish := by
  induction bs generalizing body with
  | nil => rfl
  | cons b rest ih =>
      rw [List.foldl_cons, ih]
      simp [put, finish]

/-- Blocks are put in front, the last one first. -/
theorem Body.children_foldl_put (body : Body) (bs : List Block) :
    (bs.foldl Body.put body).children = bs.reverse ++ body.children := by
  induction bs generalizing body with
  | nil => rfl
  | cons b rest ih =>
      rw [List.foldl_cons, ih]
      simp [put]

/-- Blocks are read one after another. -/
theorem reads_printBlocks {bs : List Block}
    (h : ∀ b ∈ bs, ∀ body : Body, body.Ready → Reads (printBlock b).toList body (body.put b))
    (hready : body.Ready) : Reads (printBlocks bs).toList body (bs.foldl Body.put body) := by
  induction bs generalizing body with
  | nil => exact .text rfl body
  | cons b rest ih =>
      obtain ⟨hb, hrest⟩ := List.forall_mem_cons.mp h
      rw [printBlocks, String.toList_append]
      exact (hb body hready).trans (ih hrest (body.ready_put b))

end Put

/-- **A printed block** is read back and added to the body it stands in. -/
theorem Block.Canonical.reads {b : Block} (h : b.Canonical) {body : Body} (hready : body.Ready) :
    Reads (printBlock b).toList body (body.put b) := by
  rw [h.toList_printBlock]
  induction h generalizing body with
  | @rule selectors declarations hne hselectors hdeclarations =>
      have hblock := Reads.block (isHead_joinWith hne hselectors).1 hready
        (.text hdeclarations.plain.closed {})
      rw [blockOf_joinWith hne hselectors] at hblock
      simpa [Body.write, Body.finish, head, inner] using hblock
  | declares hhead hdeclarations =>
      have hblock := Reads.block hhead.isHead hready (.text hdeclarations.plain.closed {})
      rw [hhead.blockOf] at hblock
      simpa [Body.write, Body.finish, head, inner, printBlocks] using hblock
  | @nests name params children hhead hne hchildren ih =>
      have hinner : Reads (printBlocks children).toList {} (children.foldl Body.put {}) :=
        reads_printBlocks
          (fun b hb body hready => (hchildren b hb).toList_printBlock ▸ ih b hb hready)
          (by simp [Body.Ready])
      have hblock := Reads.block hhead.isHead hready hinner
      rw [hhead.blockOf, Body.finish_foldl_put, Body.children_foldl_put] at hblock
      simpa [Body.finish, head, inner] using hblock

/-! ### Statements and sheets -/

/-- A statement is what stands between two semicolons. -/
theorem exists_of_mem_statements {declarations : List Char} {b : Block}
    (hb : b ∈ statements declarations) : ∃ piece ∈ splitAt ';' declarations,
      b = .atRule (splitAtRule (trimList piece)).1 (splitAtRule (trimList piece)).2 "" [] false := by
  obtain ⟨text, htext, hstatement⟩ := List.mem_filterMap.mp hb
  obtain ⟨piece, hpiece, rfl⟩ := List.mem_map.mp htext
  split at hstatement
  · exact ⟨piece, hpiece, (Option.some.inj hstatement).symm⟩
  · simp at hstatement

/-- The statements on both sides of a semicolon do not depend on each other. -/
theorem statements_append (cs rest : List Char) :
    statements (cs ++ ';' :: rest) = statements cs ++ statements rest := by
  rw [statements, splitAt_append, List.map_append, List.filterMap_append]
  rfl

/-- The text of one at-rule is one statement. -/
theorem statements_of_notMem {cs : List Char} (h : ';' ∉ cs) (htrimmed : trimList cs = cs)
    (hat : cs.head? = some '@') :
    statements cs = [.atRule (splitAtRule cs).1 (splitAtRule cs).2 "" [] false] := by
  simp [statements, splitAt_of_notMem h, htrimmed, hat]

/-- The head of a statement is a head. -/
theorem Block.Statement.isHead {b : Block} (h : b.Statement) : IsHead b.head := by
  cases h with
  | mk hhead => exact hhead.isHead

/-- A statement is printed with a semicolon. -/
theorem Block.Statement.toList_printBlock {b : Block} (h : b.Statement) :
    (printBlock b).toList = b.head ++ [';'] := by
  cases h with
  | mk hhead =>
      rw [head, ← hhead.toList_atRuleText]
      exact String.toList_append

/-- **Statements** are found again among the declarations. -/
theorem statements_printBlocks {bs : List Block} (h : ∀ b ∈ bs, b.Statement) :
    statements (printBlocks bs).toList = bs := by
  induction bs with
  | nil => rfl
  | cons b rest ih =>
      obtain ⟨hb, hrest⟩ := List.forall_mem_cons.mp h
      have hone : statements b.head = [b] := by
        cases hb with
        | mk hhead =>
            rw [Block.head, statements_of_notMem hhead.isHead.semicolon hhead.isHead.trimmed rfl,
              hhead.splitAtRule_head]
      rw [printBlocks, String.toList_append, hb.toList_printBlock, List.append_assoc,
        List.singleton_append, statements_append, hone, ih hrest, List.singleton_append]

/-- Statements are sealed and end with a semicolon. -/
theorem isSealed_statements {bs : List Block} (h : ∀ b ∈ bs, b.Statement) :
    isSealed none (printBlocks bs).toList = true ∧
      ∀ c ∈ (printBlocks bs).toList.getLast?, c = ';' := by
  induction bs with
  | nil => simp [printBlocks, isSealed]
  | cons b rest ih =>
      obtain ⟨hb, hrest⟩ := List.forall_mem_cons.mp h
      obtain ⟨hsealed, hlast⟩ := ih hrest
      rw [printBlocks, String.toList_append, hb.toList_printBlock, List.append_assoc,
        isSealed_append hb.isHead.closed]
      refine ⟨by simpa [isSealed] using hsealed, ?_⟩
      cases hmore : (printBlocks rest).toList with
      | nil => simp
      | cons c more =>
          rw [hmore] at hlast
          rw [List.getLast?_append_of_ne_nil _ (by simp), List.singleton_append,
            List.getLast?_cons_cons]
          exact hlast

/-- Lists of blocks are printed one behind the other. -/
theorem printBlocks_append (before after : List Block) :
    printBlocks (before ++ after) = printBlocks before ++ printBlocks after := by
  induction before with
  | nil => simp [printBlocks]
  | cons b rest ih => rw [List.cons_append, printBlocks, printBlocks, ih, String.append_assoc]

/-- **Printing is undone by reading.**  Let a stylesheet start with at-rules without a body and go
on with rules and at-rules that hold either declarations or further blocks, however deeply nested,
and let its texts be as they are printed: without needless blanks, with all strings ended and all
brackets closed, without comments, backslashes and braces outside strings.  Then what it is printed
as is accepted and read as the same stylesheet. -/
theorem Sheet.Canonical.read_print {s : Sheet} (h : s.Canonical) :
    Sheet.read s.print = .ok s := by
  obtain ⟨stmts, blocks, hs, hstmts, hblocks⟩ := h
  have hprint : s.print.toList = (printBlocks stmts).toList ++ (printBlocks blocks).toList := by
    rw [Sheet.print, hs, printBlocks_append, String.toList_append]
  have huncommented : Uncommented s.print.toList := by
    rw [hprint]
    refine uncommented_printBlocks (fun b hb rest hrest => ?_) ?_
    · rw [(hstmts b hb).toList_printBlock]
      simpa using (hstmts b hb).isHead.uncommented.around hrest (c := ';') (by decide)
    · simpa using uncommented_printBlocks (fun b hb rest => (hblocks b hb).uncommented) .nil
  obtain ⟨hsealed, hlast⟩ := isSealed_statements hstmts
  have hready : (({} : Body).write (printBlocks stmts).toList).Ready := by
    simpa [Body.Ready, Body.write] using hlast
  have hreads : Reads s.print.toList {}
      (blocks.foldl Body.put (({} : Body).write (printBlocks stmts).toList)) := by
    rw [hprint]
    exact (Reads.text hsealed {}).trans
      (reads_printBlocks (fun b hb body hready => (hblocks b hb).reads hready) hready)
  have hread := hreads 0 [] []
  rw [List.append_nil] at hread
  rw [Sheet.read_eq, dropComments_of_uncommented huncommented, hread]
  simp only [readBody]
  rw [Body.finish_foldl_put, Body.children_foldl_put]
  simp [Body.finish, Body.write, statements_printBlocks hstmts, ← hs]

/-- A statement, a rule with strings and brackets, and rules and an at-rule in an at-rule in an
at-rule. -/
def layeredSheet : Sheet :=
  ⟨[.atRule "import" "url(a.css)" "" [] false,
    .rule ["a>b:is(i,u)", "p[t=\"x,\x7d\"]"] "top:0;content:'\x7b'" [],
    .atRule "media" "screen and (width>1px)" ""
      [.rule ["p"] "a:b" [],
        .atRule "layer" "" "" [.rule ["i"] "a:b" [], .atRule "page" "" "size:a4" [] true] true]
      true]⟩

/-- A sheet with layers is canonical, and is read back. -/
theorem Sheet.Canonical.read_print_layered :
    layeredSheet.Canonical ∧ Sheet.read layeredSheet.print = .ok layeredSheet := by
  have hselector : ∀ selector ∈ ["p", "i"], PrintedSelector selector := by
    decide +kernel
  have hrule : ∀ selector ∈ ["p", "i"], (Block.rule [selector] "a:b" []).Canonical :=
    fun selector hs => .rule (by simp) (List.forall_mem_singleton.mpr (hselector selector hs))
      (by decide +kernel)
  have hlayer : (Block.atRule "layer" "" ""
      [.rule ["i"] "a:b" [], .atRule "page" "" "size:a4" [] true] true).Canonical :=
    .nests (by decide +kernel) (by simp) (List.forall_mem_cons.mpr ⟨hrule "i" (by simp),
      List.forall_mem_singleton.mpr (.declares (by decide +kernel) (by decide +kernel))⟩)
  have hlayered : layeredSheet.Canonical := by
    refine ⟨[.atRule "import" "url(a.css)" "" [] false], _, rfl, ?_, ?_⟩
    · exact List.forall_mem_singleton.mpr (.mk (by decide +kernel))
    · refine List.forall_mem_cons.mpr ⟨?_, List.forall_mem_singleton.mpr ?_⟩
      · exact .rule (by simp) (by decide +kernel) (by decide +kernel)
      · exact .nests (by decide +kernel) (by simp) (List.forall_mem_cons.mpr
          ⟨hrule "p" (by simp), List.forall_mem_singleton.mpr hlayer⟩)
  exact ⟨hlayered, Sheet.Canonical.read_print hlayered⟩

end Stencil.Style
