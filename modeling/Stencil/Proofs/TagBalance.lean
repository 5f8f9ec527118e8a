import Mathlib.Data.List.TakeWhile
import Stencil.Proofs.Nesting
import Stencil.Proofs.PrintedDocument

/-!
# Tags and the errors about their balance

The tags that open an element or close one are brackets (`tagBrackets`).  While they are taken in, the
names of the open elements are the stack that a reader of brackets keeps: a closing tag either fits
the innermost open element, or is reported, or leaves elements inside the one that it closes, which
are reported (`Builder.Turns`).  So no error about the balance of tags is found exactly if the tags are
nested, and each element that was opened is either closed by a closing tag or reported
(`parse_tagErrors`).
-/

namespace Stencil.Markup

open Stencil.Text Stencil.Source Stencil.Brackets

/-! ### Errors about tags -/

/-- Whether a text starts with another. -/
def startsWith (start text : String) : Bool := start.toList.isPrefixOf text.toList

/-- Whether the diagnostic is about a closing tag that closes nothing. -/
def reportsUnexpected (d : Diagnostic) : Bool := startsWith "Unexpected closing tag" d.message

/-- Whether the diagnostic is about an element that is not closed. -/
def reportsUnclosed (d : Diagnostic) : Bool := startsWith "Unclosed element" d.message

/-- Whether the problem can be found from the text alone, without the open elements. -/
def Problem.isLexical : Problem → Bool
  | .unexpectedClosing _ => false
  | .unclosed _ => false
  | .noNodes => false
  | _ => true

/-- A text starts with another exactly if that one is a prefix of it. -/
theorem startsWith_iff {start text : String} :
    startsWith start text = true ↔ start.toList <+: text.toList :=
  List.isPrefixOf_iff_prefix

/-- The words of a message in front of the name in it, if there is a name. -/
def Problem.words : Problem → String
  | .endInsideTag _ => "Unexpected end of input inside <"
  | .unterminatedClosing _ => "Unterminated closing tag </"
  | .unexpectedClosing _ => "Unexpected closing tag \""
  | .unclosed _ => "Unclosed element \""
  | p => p.message

/-- A message begins with the fixed words of its problem. -/
theorem Problem.words_prefix (p : Problem) : p.words.toList <+: p.message.toList := by
  have hmessage : ∃ more, p.message = p.words ++ more := by
    cases p with
    | unterminatedClosing name => exact ⟨name, rfl⟩
    | endInsideTag name => exact ⟨name ++ ">", String.append_assoc ..⟩
    | unexpectedClosing name => exact ⟨name ++ "\"", String.append_assoc ..⟩
    | unclosed name => exact ⟨name ++ "\"", String.append_assoc ..⟩
    | _ => exact ⟨"", String.append_empty.symm⟩
  obtain ⟨more, hmore⟩ := hmessage
  rw [hmore, String.toList_append]
  exact List.prefix_append _ _

/-- So the words decide what the message starts with, if it starts within them. -/
theorem startsWith_message {start : String} {p : Problem} (h : startsWith start p.words = true) :
    startsWith start p.message = true := by
  rw [startsWith_iff] at h ⊢
  exact h.trans p.words_prefix

/-- If neither the words nor another text starts with the other, the message does not start with that
text: two texts with which it starts would start with each other. -/
theorem not_startsWith_message {start : String} {p : Problem}
    (h : startsWith start p.words = false ∧ startsWith p.words start = false) :
    ¬ startsWith start p.message = true := by
  simp only [Bool.eq_false_iff, ne_eq, startsWith_iff] at h
  rw [startsWith_iff]
  intro hstart
  rcases List.prefix_or_prefix_of_prefix hstart p.words_prefix with hpre | hpre
  · exact h.1 hpre
  · exact h.2 hpre

/-- The wording of a problem tells whether it is about a closing tag that closes nothing. -/
theorem startsWith_unexpected (p : Problem) :
    startsWith "Unexpected closing tag" p.message = true ↔ ∃ name, p = .unexpectedClosing name := by
  cases p with
  | unexpectedClosing name =>
      refine iff_of_true (startsWith_message ?_) ⟨name, rfl⟩
      dsimp only [Problem.words]
      decide +kernel
  | _ =>
      refine iff_of_false (not_startsWith_message ?_) (by simp)
      dsimp only [Problem.words, Problem.message]
      decide +kernel

/-- The wording of a problem tells whether it is about an element that is not closed. -/
theorem startsWith_unclosed (p : Problem) :
    startsWith "Unclosed element" p.message = true ↔ ∃ name, p = .unclosed name := by
  cases p with
  | unclosed name =>
      refine iff_of_true (startsWith_message ?_) ⟨name, rfl⟩
      dsimp only [Problem.words]
      decide +kernel
  | _ =>
      refine iff_of_false (not_startsWith_message ?_) (by simp)
      dsimp only [Problem.words, Problem.message]
      decide +kernel

/-- None of the diagnostics is about the balance of tags. -/
def Calm (ds : List Diagnostic) : Prop :=
  ∀ d ∈ ds, reportsUnexpected d = false ∧ reportsUnclosed d = false

/-- Diagnostics joined are calm exactly if both parts are. -/
theorem calm_append {ds more : List Diagnostic} : Calm (ds ++ more) ↔ Calm ds ∧ Calm more :=
  List.forall_mem_append

/-- Calm diagnostics report no tag, neither an unclosed nor an unexpected one. -/
theorem countP_of_calm {ds : List Diagnostic} (h : Calm ds) :
    ds.countP reportsUnclosed = 0 ∧ ds.countP reportsUnexpected = 0 := by
  rw [List.countP_eq_zero, List.countP_eq_zero]
  exact ⟨fun d hd => by simp [(h d hd).2], fun d hd => by simp [(h d hd).1]⟩

/-! ### What the scan finds -/

/-- The problem of a value alone. -/
theorem isLexical_scanValue (cs : List Char) : ∀ p ∈ (scanValue cs).problem, p.isLexical = true := by
  have hquoted : ∀ mark quote rest, ∀ p ∈ (scanQuoted mark quote rest).problem,
      p.isLexical = true := by
    intro mark quote rest p hp
    unfold scanQuoted at hp
    split at hp
    · simp at hp
    · obtain rfl : p = .unterminatedValue := by simpa [eq_comm] using hp
      rfl
  intro p hp
  unfold scanValue at hp
  split at hp
  · exact hquoted _ _ _ p hp
  · exact hquoted _ _ _ p hp
  · split at hp
    · simp at hp
    · obtain rfl : p = .unterminatedExpression := by simpa [eq_comm] using hp
      rfl
  · simp at hp

/-- A problem met in an attribute is lexical. -/
theorem isLexical_scanAttribute {cs : List Char} {a : AttributeScan} (h : scanAttribute cs = some a) :
    ∀ p ∈ a.problem, p.isLexical = true := by
  cases scannedFrom_of_scanAttribute h with
  | value => exact isLexical_scanValue cs
  | assigned => exact isLexical_scanValue _
  | named => simp

/-- The problems met in a list of attributes are lexical. -/
theorem isLexical_scanAttributes (offset : Nat) (cs : List Char) :
    ∀ f ∈ (scanAttributes offset cs).findings, f.problem.isLexical = true := by
  fun_induction scanAttributes offset cs with
  | case1 => simp
  | case2 => simp
  | case3 => simp
  | case4 offset cs start c rest _ _ h hlen ha ih => exact ih
  | case5 offset cs start c rest _ _ h hlen a ha hlt token more found ih =>
      intro f hf
      rcases List.mem_append.mp hf with hf | hf
      · obtain ⟨p, hp, rfl⟩ := List.mem_map.mp hf
        exact isLexical_scanAttribute ha p (by simpa using hp)
      · exact ih f hf

/-- Those met in a closing tag are lexical. -/
theorem isLexical_scanClosing (offset : Nat) (cs : List Char) :
    ∀ f ∈ (scanClosing offset cs).findings, f.problem.isLexical = true := by
  unfold scanClosing
  dsimp only
  split <;> simp [Problem.isLexical]

/-- Those met in a raw body are lexical. -/
theorem isLexical_scanRaw (name : String) (offset : Nat) (cs : List Char) :
    ∀ f ∈ (scanRaw name offset cs).findings, f.problem.isLexical = true := by
  unfold scanRaw
  dsimp only
  split
  · simp
  · exact isLexical_scanClosing _ _

/-- Those met in an opening tag are lexical. -/
theorem isLexical_scanOpening (offset : Nat) (cs : List Char) :
    ∀ f ∈ (scanOpening offset cs).findings, f.problem.isLexical = true := by
  unfold scanOpening
  dsimp only
  have htag := isLexical_scanAttributes (offset + 1 + byteSize ((cs.drop 1).takeWhile isTagPart))
    ((cs.drop 1).dropWhile isTagPart)
  generalize scanAttributes _ _ = tag at htag ⊢
  generalize String.ofList _ = name
  have hended (f : Finding) (hf : f ∈ tag.findings ++
      if tag.ended then [] else [⟨.endInsideTag name, offset, tag.stop⟩]) :
      f.problem.isLexical = true := by
    rcases List.mem_append.mp hf with hf | hf
    · exact htag f hf
    · split at hf
      · simp at hf
      · obtain rfl := List.mem_singleton.mp hf
        rfl
  split
  · intro f hf
    rcases List.mem_append.mp hf with hf | hf
    · exact hended f hf
    · exact isLexical_scanRaw _ _ _ f hf
  · exact hended

/-- Those met in one step of the scanner are lexical. -/
theorem isLexical_scanNext (offset : Nat) (c : Char) (cs : List Char) :
    ∀ f ∈ (scanNext offset c cs).findings, f.problem.isLexical = true := by
  unfold scanNext
  dsimp only
  split
  · unfold scanComment
    dsimp only
    split <;> simp [Problem.isLexical]
  · split
    · unfold scanDeclaration
      split <;> simp [scanText]
    · split
      · split
        · exact isLexical_scanClosing _ _
        · exact isLexical_scanOpening _ _
      · simp [scanText]

/-- **What is found while the text is cut into tokens** is not about the balance of tags. -/
theorem isLexical_scan (source : String) : ∀ f ∈ (scan source).2, f.problem.isLexical = true := by
  show ∀ f ∈ (scanFrom 0 source.toList).2, f.problem.isLexical = true
  generalize source.toList = cs
  generalize 0 = offset
  fun_induction scanFrom offset cs with
  | case1 => simp
  | case2 offset c cs s tokens findings hscan ih =>
      intro f hf
      rcases List.mem_append.mp hf with hf | hf
      · exact isLexical_scanNext offset c cs f hf
      · rw [hscan] at ih
        exact ih f hf

/-! ### Tags as brackets -/

/-- A closing tag of the second name belongs to an opening tag of the first: the names are the same,
or the same but for the letter case if the content of the element is not markup. -/
def SameTag (opened closing : String) : Prop :=
  opened = closing ∨ isRawText opened = true ∧ lower opened = lower closing

/-- A closing tag closes an opened one exactly if both have the same tag. -/
theorem closes_iff {opened closing : String} :
    closes opened closing = true ↔ SameTag opened closing := by
  simp [closes, SameTag]

/-- Tags that are empty by nature are empty in any letter case. -/
theorem SameTag.isVoid_eq {opened closing : String} (h : SameTag opened closing) :
    isVoid opened = isVoid closing := by
  rcases h with rfl | ⟨-, hlower⟩
  · rfl
  · rw [isVoid, isVoid, hlower]

/-- What the token is for the balance of tags: tags of elements without content are left out. -/
def Token.bracket? (t : Token) : Option (Bracket String String) :=
  match t.lexeme with
  | .opening name _ selfClosing => if selfClosing || isVoid name then none else some (.opening name)
  | .closing name => if isVoid name then none else some (.closing name)
  | _ => none

/-- The tags of a source that open an element or close one. -/
def tagBrackets (source : String) : List (Bracket String String) :=
  (scan source).1.filterMap Token.bracket?

/-! ### What a token does to the open elements -/

namespace Builder

variable {b b' : Builder} {c : Context} {t : Token}

/-- What is reported of an element that is not closed. -/
def unclosed (b : Builder) (id : Nat) : Diagnostic :=
  .error (Problem.unclosed (b.nameOf id)).message none

/-- The element that the token closes. -/
def closed? (b : Builder) (t : Token) : Option Nat :=
  match t.lexeme with
  | .closing name => b.stack.find? fun id => closes (b.nameOf id) name
  | _ => none

/-- A token opens one element or none, or closes one.  A closing tag that fits no open element is
reported, and so are the elements inside the one that it closes. -/
inductive Turns (b b' : Builder) : Option (Bracket String String) → Option Nat → Prop
  | none (hstack : b'.stack = b.stack) (hdiagnostics : b'.diagnostics = b.diagnostics) :
      Turns b b' none none
  | opening {name : String} (hname : isVoid name = false)
      (hstack : b'.stack = b.document.size :: b.stack) (hopened : b'.nameOf b.document.size = name)
      (hsize : b'.document.size = b.document.size + 1)
      (hdiagnostics : b'.diagnostics = b.diagnostics) : Turns b b' (some (.opening name)) none
  | unexpected {name : String} {span : Option Span}
      (hnone : ∀ id ∈ b.stack, ¬ SameTag (b.nameOf id) name) (hstack : b'.stack = b.stack)
      (hdiagnostics : b'.diagnostics =
        b.diagnostics ++ [Diagnostic.error (Problem.unexpectedClosing name).message span]) :
      Turns b b' (some (.closing name)) none
  | closing {name : String} {inner outer : List Nat} {id : Nat}
      (hstack : b.stack = inner ++ id :: outer) (hid : SameTag (b.nameOf id) name)
      (hinner : ∀ i ∈ inner, ¬ SameTag (b.nameOf i) name) (hstack' : b'.stack = outer)
      (hdiagnostics : b'.diagnostics = b.diagnostics ++ inner.map b.unclosed) :
      Turns b b' (some (.closing name)) (some id)

/-- Reporting unclosed elements adds one diagnostic for each, in order. -/
theorem reportUnclosed_diagnostics (b : Builder) (ids : List Nat) :
    (b.reportUnclosed ids).diagnostics = b.diagnostics ++ ids.map b.unclosed := by
  have hgeneral : ∀ b' : Builder, b'.document = b.document →
      (b'.reportUnclosed ids).diagnostics = b'.diagnostics ++ ids.map b.unclosed := by
    induction ids with
    | nil => simp [reportUnclosed]
    | cons id rest ih =>
        intro b' hdocument
        have hname : b'.nameOf id = b.nameOf id := by rw [nameOf, nameOf, hdocument]
        have hrest := ih (b'.report (.error (Problem.unclosed (b'.nameOf id)).message none)) hdocument
        rw [reportUnclosed] at hrest ⊢
        rw [List.foldl_cons, hrest]
        simp [report, unclosed, hname]
  exact hgeneral b rfl

/-- The open elements have content, and have been opened one after the other. -/
structure Tracked (b : Builder) : Prop where
  ordered : b.Ordered
  nonvoid : ∀ id ∈ b.stack, isVoid (b.nameOf id) = false

/-- A step leaves the tag of a node that is there as it is. -/
theorem tag?_step (h : b.WellFormed) (c : Context) (t : Token) {id : Nat}
    (hid : id < b.document.size) :
    ((b.step c t).document.node id).tag? = (b.document.node id).tag? := by
  have hadd : ∀ n : Node, ((b.add n).document.node id).tag? = (b.document.node id).tag? := by
    intro n
    rw [Node.tag?, Node.tag?, Node.element?_congr]
    rw [Builder.add, Document.content_append h.parent_lt, if_neg (Nat.ne_of_lt hid)]
  have hupdate : ∀ (i : Nat) (f : Node → Node), (f (b.document.node i)).tag? =
      (b.document.node i).tag? →
      ((b.document.update i f).node id).tag? = (b.document.node id).tag? := by
    intro i f hf
    rcases Document.node_update_cases b.document i f id with hnode | ⟨rfl, hnode⟩
    · rw [hnode]
    · rw [hnode, hf]
  obtain ⟨lexeme, start, stop⟩ := t
  cases lexeme with
  | text text =>
      simp only [step, addText]
      split
      · next last before hlast =>
          refine hupdate _ _ ?_
          simp [Node.tag?, Node.element?, content_of_lastText? hlast]
      · exact hadd _
  | comment content =>
      simp only [step, addComment]
      split
      · exact hadd _
      · rfl
  | opening name attributes selfClosing =>
      simp only [step, openElement]
      split <;> exact hadd _
  | raw text => exact hupdate _ _ (Node.tag?_mapElement _ fun _ => rfl)
  | closing name =>
      simp only [step, closeElement]
      split
      · split <;> rfl
      · rw [reportUnclosed_document]
        exact hupdate _ _ rfl

/-- The name of an element stays. -/
theorem nameOf_step (h : b.WellFormed) (c : Context) (t : Token) {id : Nat}
    (hid : id < b.document.size) : (b.step c t).nameOf id = b.nameOf id := by
  have hname : ∀ b : Builder, b.nameOf id = (b.document.node id).tag?.getD "" := by
    intro b
    rw [nameOf, Node.tag?]
    cases (b.document.node id).element? <;> rfl
  rw [hname, hname, tag?_step h c t hid]

/-- **One token.** -/
theorem Tracked.turns (h : b.Tracked) (c : Context) (t : Token) :
    b.Turns (b.step c t) t.bracket? (b.closed? t) := by
  obtain ⟨lexeme, start, stop⟩ := t
  cases lexeme with
  | text text =>
      simp only [step, addText]
      split
      · exact .none rfl rfl
      · exact .none rfl rfl
  | comment content =>
      simp only [step, addComment]
      split
      · exact .none rfl rfl
      · exact .none rfl rfl
  | raw text => exact .none rfl rfl
  | opening name attributes selfClosing =>
      simp only [step, Token.bracket?, closed?]
      rw [openElement_eq]
      split
      · exact .none rfl rfl
      · next hempty =>
          obtain ⟨-, hname⟩ : selfClosing = false ∧ isVoid name = false := by simpa using hempty
          refine .opening hname rfl ?_ (by simp [inside, add]) rfl
          have hnode : ((b.inside (opened c name attributes selfClosing start stop)).document.node
              b.document.size).content =
                (opened c name attributes selfClosing start stop).content :=
            congrArg Node.content (node_add_self h.ordered)
          rw [nameOf, Node.element?_congr hnode]
          rfl
  | closing name =>
      simp only [step, closeElement, Token.bracket?, closed?]
      cases hfind : b.stack.find? fun id => closes (b.nameOf id) name with
      | none =>
          have hnone : ∀ id ∈ b.stack, ¬ closes (b.nameOf id) name = true :=
            List.find?_eq_none.mp hfind
          have hdrop : b.stack.dropWhile (fun id => !closes (b.nameOf id) name) = [] :=
            List.dropWhile_eq_nil_iff.mpr fun id hid => by simpa using hnone id hid
          rw [hdrop]
          by_cases hvoid : isVoid name = true
          · simp only [hvoid, if_true]
            exact .none rfl rfl
          · simp only [hvoid, if_false, Bool.false_eq_true]
            exact .unexpected (fun id hid => mt closes_iff.mpr (hnone id hid)) rfl rfl
      | some id =>
          obtain ⟨hid, inner, outer, hstack, hinner⟩ := List.find?_eq_some_iff_append.mp hfind
          have hvoid : isVoid name = false := by
            rw [← (closes_iff.mp hid).isVoid_eq]
            exact h.nonvoid id (by simp [hstack])
          have hdrop : b.stack.dropWhile (fun id => !closes (b.nameOf id) name) = id :: outer := by
            rw [hstack, List.dropWhile_append_of_pos hinner, List.dropWhile_cons_of_neg (by simp [hid])]
          have htake : b.stack.takeWhile (fun id => !closes (b.nameOf id) name) = inner := by
            rw [hstack, List.takeWhile_append_of_pos hinner, List.takeWhile_cons_of_neg (by simp [hid]),
              List.append_nil]
          rw [hdrop, htake]
          simp only [hvoid, if_false, Bool.false_eq_true]
          refine .closing hstack (closes_iff.mp hid) ?_ rfl (b.reportUnclosed_diagnostics inner)
          intro i hi
          rw [← closes_iff]
          simpa using hinner i hi

/-- A token keeps the stack of open elements in shape. -/
theorem Tracked.step (h : b.Tracked) (c : Context) {t : Token} (ht : t.lexeme.Named) :
    (b.step c t).Tracked := by
  refine ⟨h.ordered.step c ht, ?_⟩
  have hkeep : ∀ {ids : List Nat}, ids ⊆ b.stack →
      ∀ id ∈ ids, isVoid ((b.step c t).nameOf id) = false := by
    intro ids hids id hid
    rw [nameOf_step h.ordered.shape c t (h.ordered.shape.stack id (hids hid))]
    exact h.nonvoid id (hids hid)
  have hturns := h.turns c t
  generalize t.bracket? = bracket, b.closed? t = closed at hturns
  cases hturns with
  | none hstack _ => exact hkeep (hstack ▸ List.Subset.refl _)
  | opening hname hstack hopened _ _ =>
      rw [hstack]
      refine List.forall_mem_cons.mpr ⟨?_, hkeep (List.Subset.refl _)⟩
      rw [hopened, hname]
  | unexpected _ hstack _ => exact hkeep (hstack ▸ List.Subset.refl _)
  | closing hstack _ _ hstack' _ =>
      rw [hstack']
      refine hkeep ?_
      rw [hstack]
      exact List.subset_append_of_subset_right _ (List.subset_cons_self _ _)

/-- An empty document is tracked. -/
theorem tracked_empty (diagnostics : List Diagnostic) :
    ({ diagnostics := diagnostics } : Builder).Tracked :=
  ⟨ordered_empty diagnostics, by simp⟩

/-! ### Errors in number -/

/-- The diagnostic of an unclosed element reports an unclosed tag. -/
theorem reportsUnclosed_unclosed (b : Builder) (id : Nat) : reportsUnclosed (b.unclosed id) = true :=
  (startsWith_unclosed _).mpr ⟨_, rfl⟩

/-- It reports no unexpected one. -/
theorem reportsUnexpected_unclosed (b : Builder) (id : Nat) :
    reportsUnexpected (b.unclosed id) = false := by
  rw [← Bool.not_eq_true]
  refine mt (startsWith_unexpected _).mp ?_
  simp

/-- The diagnostic of an unexpected closing tag reports an unexpected one. -/
theorem reportsUnexpected_unexpected (name : String) (span : Option Span) :
    reportsUnexpected (.error (Problem.unexpectedClosing name).message span) = true :=
  (startsWith_unexpected _).mpr ⟨_, rfl⟩

/-- It reports no unclosed one. -/
theorem reportsUnclosed_unexpected (name : String) (span : Option Span) :
    reportsUnclosed (.error (Problem.unexpectedClosing name).message span) = false := by
  rw [← Bool.not_eq_true]
  refine mt (startsWith_unclosed _).mp ?_
  simp

/-- Each diagnostic of an unclosed element counts as unclosed. -/
theorem countP_map_unclosed (b : Builder) (ids : List Nat) :
    (ids.map b.unclosed).countP reportsUnclosed = ids.length := by
  rw [← List.length_map b.unclosed, List.countP_eq_length]
  intro d hd
  obtain ⟨i, -, rfl⟩ := List.mem_map.mp hd
  exact b.reportsUnclosed_unclosed i

/-- None of them counts as unexpected. -/
theorem countP_map_unclosed_unexpected (b : Builder) (ids : List Nat) :
    (ids.map b.unclosed).countP reportsUnexpected = 0 := by
  rw [List.countP_eq_zero]
  intro d hd
  obtain ⟨i, -, rfl⟩ := List.mem_map.mp hd
  simp [b.reportsUnexpected_unclosed i]

/-- An element that is opened stays open until it is closed or reported. -/
theorem Turns.countP_unclosed {bracket : Option (Bracket String String)} {closed : Option Nat}
    (h : b.Turns b' bracket closed) :
    b'.diagnostics.countP reportsUnclosed + closed.toList.length + b'.stack.length =
      b.diagnostics.countP reportsUnclosed + b.stack.length +
        bracket.toList.countP Bracket.isOpening := by
  cases h with
  | none hstack hdiagnostics => simp [hstack, hdiagnostics]
  | opening _ hstack _ _ hdiagnostics =>
      simp [hstack, hdiagnostics, Bracket.isOpening, Nat.add_assoc]
  | unexpected _ hstack hdiagnostics =>
      simp [hstack, hdiagnostics, reportsUnclosed_unexpected, Bracket.isOpening]
  | @closing name inner outer id hstack _ _ hstack' hdiagnostics =>
      rw [hdiagnostics, List.countP_append, countP_map_unclosed, hstack, hstack']
      simp [Bracket.isOpening]
      omega

/-- A closing tag closes an element or is reported. -/
theorem Turns.countP_unexpected {bracket : Option (Bracket String String)} {closed : Option Nat}
    (h : b.Turns b' bracket closed) :
    b'.diagnostics.countP reportsUnexpected + closed.toList.length =
      b.diagnostics.countP reportsUnexpected + bracket.toList.countP Bracket.isClosing := by
  cases h with
  | none _ hdiagnostics => simp [hdiagnostics]
  | opening _ _ _ _ hdiagnostics => simp [hdiagnostics, Bracket.isClosing]
  | unexpected _ _ hdiagnostics =>
      simp [hdiagnostics, reportsUnexpected_unexpected, Bracket.isClosing]
  | @closing name inner outer id _ _ _ _ hdiagnostics =>
      rw [hdiagnostics, List.countP_append, countP_map_unclosed_unexpected]
      simp [Bracket.isClosing]

/-- The elements that some tokens close. -/
def closedBy (c : Context) : Builder → List Token → List Nat
  | _, [] => []
  | b, t :: rest => (b.closed? t).toList ++ closedBy c (b.step c t) rest

/-- The brackets of a list of tokens are those of its head and its tail. -/
theorem filterMap_bracket?_cons (t : Token) (rest : List Token) :
    (t :: rest).filterMap Token.bracket? = t.bracket?.toList ++ rest.filterMap Token.bracket? := by
  rw [List.filterMap_cons]
  cases t.bracket? <;> rfl

/-- Over a run, every opening is reported as unclosed, closed, or still open at the end. -/
theorem Tracked.countP_unclosed (h : b.Tracked) (c : Context) {tokens : List Token}
    (ht : ∀ t ∈ tokens, t.lexeme.Named) :
    (tokens.foldl (Builder.step c) b).diagnostics.countP reportsUnclosed +
        (closedBy c b tokens).length + (tokens.foldl (Builder.step c) b).stack.length =
      b.diagnostics.countP reportsUnclosed + b.stack.length +
        (tokens.filterMap Token.bracket?).countP Bracket.isOpening := by
  induction tokens generalizing b with
  | nil => simp [closedBy]
  | cons t rest ih =>
      obtain ⟨hfirst, hrest⟩ := List.forall_mem_cons.mp ht
      have hstep := (h.turns c t).countP_unclosed
      have hrun := ih (h.step c hfirst) hrest
      rw [filterMap_bracket?_cons, List.countP_append, List.foldl_cons, closedBy, List.length_append]
      omega

/-- Over a run, every closing is reported as unexpected or has closed something. -/
theorem Tracked.countP_unexpected (h : b.Tracked) (c : Context) {tokens : List Token}
    (ht : ∀ t ∈ tokens, t.lexeme.Named) :
    (tokens.foldl (Builder.step c) b).diagnostics.countP reportsUnexpected +
        (closedBy c b tokens).length =
      b.diagnostics.countP reportsUnexpected +
        (tokens.filterMap Token.bracket?).countP Bracket.isClosing := by
  induction tokens generalizing b with
  | nil => simp [closedBy]
  | cons t rest ih =>
      obtain ⟨hfirst, hrest⟩ := List.forall_mem_cons.mp ht
      have hstep := (h.turns c t).countP_unexpected
      have hrun := ih (h.step c hfirst) hrest
      rw [filterMap_bracket?_cons, List.countP_append, List.foldl_cons, closedBy, List.length_append]
      omega

/-! ### Errors and nesting -/

/-- Elements that are not closed are reported, if there are any. -/
theorem calm_unclosed (b : Builder) {ids : List Nat} : Calm (ids.map b.unclosed) ↔ ids = [] := by
  constructor
  · intro hcalm
    cases ids with
    | nil => rfl
    | cons id rest =>
        have hid := (hcalm (b.unclosed id) (by simp)).2
        rw [reportsUnclosed_unclosed] at hid
        cases hid
  · rintro rfl
    simp [Calm]

/-- The names of the open elements, the innermost first. -/
def openNames (b : Builder) : List String := b.stack.map b.nameOf

/-- **A token and the stack.**  Nothing is reported exactly if the token fits the open elements. -/
theorem Tracked.calm_step (h : b.Tracked) (c : Context) (t : Token)
    (hcalm : Calm b.diagnostics) (rest : List (Bracket String String)) :
    Calm (b.step c t).diagnostics ∧ Settles SameTag (b.step c t).openNames rest ↔
      Settles SameTag b.openNames (t.bracket?.toList ++ rest) := by
  have hkeep : ∀ {ids : List Nat}, ids ⊆ b.stack →
      ids.map (b.step c t).nameOf = ids.map b.nameOf := fun hids =>
    List.map_congr_left fun id hid =>
      nameOf_step h.ordered.shape c t (h.ordered.shape.stack id (hids hid))
  have hturns := h.turns c t
  generalize b.step c t = b', t.bracket? = bracket, b.closed? t = closed at hturns hkeep ⊢
  unfold openNames
  cases hturns with
  | none hstack hdiagnostics =>
      rw [hstack, hdiagnostics, hkeep (List.Subset.refl _)]
      exact and_iff_right hcalm
  | @opening name _ hstack hopened _ hdiagnostics =>
      rw [hstack, hdiagnostics, List.map_cons, hopened, hkeep (List.Subset.refl _),
        and_iff_right hcalm]
      exact settles_opening.symm
  | @unexpected name span hnone hstack hdiagnostics =>
      refine iff_of_false ?_ ?_
      · rintro ⟨hcalm', -⟩
        rw [hdiagnostics, calm_append] at hcalm'
        have hlone := (hcalm'.2 _ List.mem_cons_self).1
        rw [reportsUnexpected_unexpected] at hlone
        cases hlone
      · intro hsettles
        obtain ⟨_, _, hopen, hfits, -⟩ := settles_closing.mp hsettles
        obtain ⟨id, outer, hids, rfl, -⟩ := List.map_eq_cons_iff.mp hopen
        exact hnone id (by simp [hids]) hfits
  | @closing name inner outer id hstack hid hinner hstack' hdiagnostics =>
      have houter : outer ⊆ b.stack := by simp [hstack]
      rw [hstack', hdiagnostics, calm_append, calm_unclosed, hkeep houter, hstack]
      constructor
      · rintro ⟨⟨-, rfl⟩, hsettles⟩
        exact settles_closing.mpr ⟨_, _, rfl, hid, hsettles⟩
      · intro hsettles
        obtain ⟨_, _, hopen, hfits, hsettles⟩ := settles_closing.mp hsettles
        cases inner with
        | nil =>
            obtain ⟨rfl, rfl⟩ := List.cons.inj hopen
            exact ⟨⟨hcalm, rfl⟩, hsettles⟩
        | cons i inner =>
            obtain ⟨rfl, -⟩ := List.cons.inj hopen
            exact (hinner i List.mem_cons_self hfits).elim

/-- **All tokens and the stack.**  Nothing is reported in the end exactly if the tokens close all that
is open and all that they open. -/
theorem Tracked.calm_run (h : b.Tracked) (c : Context) {tokens : List Token}
    (ht : ∀ t ∈ tokens, t.lexeme.Named) (hcalm : Calm b.diagnostics) :
    Calm (tokens.foldl (Builder.step c) b).diagnostics ∧
        (tokens.foldl (Builder.step c) b).stack = [] ↔
      Settles SameTag b.openNames (tokens.filterMap Token.bracket?) := by
  induction tokens generalizing b with
  | nil =>
      rw [List.foldl_nil, List.filterMap_nil, and_iff_right hcalm, settles_nil, openNames,
        List.map_eq_nil_iff]
  | cons t rest ih =>
      obtain ⟨hfirst, hrest⟩ := List.forall_mem_cons.mp ht
      have hnext := h.step c hfirst
      rw [filterMap_bracket?_cons, ← h.calm_step c t hcalm, List.foldl_cons]
      constructor
      · rintro ⟨hend, hstack⟩
        have hcalm' : Calm (b.step c t).diagnostics := fun d hd =>
          hend d ((diagnostics_run c (b.step c t) rest).subset hd)
        exact ⟨hcalm', (ih hnext hrest hcalm').mp ⟨hend, hstack⟩⟩
      · rintro ⟨hcalm', hsettles⟩
        exact (ih hnext hrest hcalm').mpr hsettles

/-! ### Each element is closed once -/

/-- A step takes no node away. -/
theorem size_le_step (b : Builder) (c : Context) {t : Token} (ht : t.lexeme.Named) :
    b.document.size ≤ (b.step c t).document.size := by
  have hmoves := b.step_moves c ht
  generalize b.step c t = b' at hmoves ⊢
  cases hmoves with
  | add hn hname => simp [Builder.add]
  | push hn hname htype => simp [inside, Builder.add]
  | change hdocument hchildren htype hstack => rw [hdocument, Document.size_update]
  | same hdocument hstack => rw [hdocument]

/-- A run leaves the tag of a node that was there as it is. -/
theorem Tracked.tag?_run (h : b.Tracked) (c : Context) {tokens : List Token}
    (ht : ∀ t ∈ tokens, t.lexeme.Named) {id : Nat} (hid : id < b.document.size) :
    ((tokens.foldl (Builder.step c) b).document.node id).tag? = (b.document.node id).tag? := by
  induction tokens generalizing b with
  | nil => rfl
  | cons t rest ih =>
      obtain ⟨hfirst, hrest⟩ := List.forall_mem_cons.mp ht
      have hlt := Nat.lt_of_lt_of_le hid (b.size_le_step c hfirst)
      rw [List.foldl_cons, ih (h.step c hfirst) hrest hlt, tag?_step h.ordered.shape c t hid]

/-- What is on the stack has a tag. -/
theorem Tracked.tag?_of_mem (h : b.Tracked) {id : Nat} (hid : id ∈ b.stack) :
    (b.document.node id).tag?.isSome = true := by
  have htype := h.ordered.tags id hid
  cases hcontent : (b.document.node id).content <;>
    simp_all [Content.type, Node.tag?, Node.element?]

/-- Elements that are closed have been open, and are not open any more. -/
theorem Tracked.closed_run (h : b.Tracked) (c : Context) {tokens : List Token}
    (ht : ∀ t ∈ tokens, t.lexeme.Named) : (closedBy c b tokens).Nodup ∧
      ∀ id ∈ closedBy c b tokens, (id ∈ b.stack ∨ b.document.size ≤ id) ∧
        ((tokens.foldl (Builder.step c) b).document.node id).tag?.isSome = true := by
  induction tokens generalizing b with
  | nil => simp [closedBy]
  | cons t rest ih =>
      obtain ⟨hfirst, hrest⟩ := List.forall_mem_cons.mp ht
      have hnext := h.step c hfirst
      obtain ⟨hnodup, hlater⟩ := ih hnext hrest
      have hsize := b.size_le_step c hfirst
      have hturns := h.turns c t
      have hinward := h.ordered.inward
      have hshape := h.ordered.shape.stack
      rw [closedBy, List.foldl_cons]
      generalize t.bracket? = bracket, b.closed? t = closed at hturns ⊢
      cases hturns with
      | none hstack _ =>
          refine ⟨hnodup, fun id hid => ⟨?_, (hlater id hid).2⟩⟩
          have hwhere := (hlater id hid).1
          rw [hstack] at hwhere
          exact hwhere.imp_right (Nat.le_trans hsize)
      | opening _ hstack _ _ _ =>
          refine ⟨hnodup, fun id hid => ⟨?_, (hlater id hid).2⟩⟩
          have hwhere := (hlater id hid).1
          rw [hstack, List.mem_cons] at hwhere
          grind
      | unexpected _ hstack _ =>
          refine ⟨hnodup, fun id hid => ⟨?_, (hlater id hid).2⟩⟩
          have hwhere := (hlater id hid).1
          rw [hstack] at hwhere
          exact hwhere.imp_right (Nat.le_trans hsize)
      | @closing name inner outer id hstack _ _ hstack' _ =>
          have hmem : id ∈ b.stack := by simp [hstack]
          rw [hstack, List.pairwise_append, List.pairwise_cons] at hinward
          refine ⟨List.nodup_cons.mpr ⟨?_, hnodup⟩, List.forall_mem_cons.mpr ⟨⟨.inl hmem, ?_⟩, ?_⟩⟩
          · intro hid
            have hwhere := (hlater id hid).1
            rw [hstack'] at hwhere
            rcases hwhere with hout | hnew
            · exact Nat.lt_irrefl _ (hinward.2.1.1 id hout)
            · exact absurd (hshape id hmem) (by omega)
          · rw [hnext.tag?_run c hrest (Nat.lt_of_lt_of_le (hshape id hmem) hsize),
              tag?_step h.ordered.shape c t (hshape id hmem)]
            exact h.tag?_of_mem hmem
          · intro i hi
            refine ⟨?_, (hlater i hi).2⟩
            have hwhere := (hlater i hi).1
            rw [hstack'] at hwhere
            rw [hstack]
            grind

end Builder

/-! ### The whole source -/

/-- The elements of a source that a closing tag closes. -/
def closedElements (s : Settings) (source : String) : List Nat :=
  Builder.closedBy ⟨s, .of source⟩
    { diagnostics := (scan source).2.map (Context.diagnostic ⟨s, .of source⟩) } (scan source).1

/-- What the scanner finds is calm. -/
theorem calm_findings (c : Context) (source : String) :
    Calm ((scan source).2.map c.diagnostic) := by
  intro d hd
  obtain ⟨f, hf, rfl⟩ := List.mem_map.mp hd
  have hlexical := isLexical_scan source f hf
  rw [← Bool.not_eq_true, ← Bool.not_eq_true]
  refine ⟨mt (startsWith_unexpected f.problem).mp ?_, mt (startsWith_unclosed f.problem).mp ?_⟩
  · rintro ⟨name, hname⟩
    simp [hname, Problem.isLexical] at hlexical
  · rintro ⟨name, hname⟩
    simp [hname, Problem.isLexical] at hlexical

/-- The diagnostics of a source: those of the run, one for each element that is still open, and one if
no node was made. -/
theorem parse_diagnostics (s : Settings) (source : String) :
    ∃ more, Calm more ∧ (parse s source).2 =
      (built s source).diagnostics ++ (built s source).stack.map (built s source).unclosed ++
        more := by
  simp only [parse, Builder.finish]
  split
  · refine ⟨[], by simp [Calm], ?_⟩
    rw [Builder.reportUnclosed_diagnostics, List.append_nil]
    rfl
  · refine ⟨[Context.diagnostic ⟨s, .of source⟩ ⟨.noNodes, 0, source.utf8ByteSize⟩], ?_, ?_⟩
    · intro d hd
      obtain rfl := List.mem_singleton.mp hd
      rw [← Bool.not_eq_true, ← Bool.not_eq_true]
      exact ⟨mt (startsWith_unexpected .noNodes).mp (by simp),
        mt (startsWith_unclosed .noNodes).mp (by simp)⟩
    · rw [Builder.report, Builder.reportUnclosed_diagnostics]
      rfl

/-- A reader of brackets accepts the tags of a source exactly if no error about them is found. -/
theorem calm_parse_iff (s : Settings) (source : String) :
    Calm (parse s source).2 ↔ WellNested SameTag (tagBrackets source) := by
  obtain ⟨more, hmore, hparse⟩ := parse_diagnostics s source
  rw [hparse, calm_append, calm_append, and_iff_left hmore, Builder.calm_unclosed,
    ← settles_iff_wellNested]
  exact (Builder.tracked_empty _).calm_run _ (scan_named source) (calm_findings _ source)

/-- An element is closed by a closing tag or reported. -/
theorem countP_unclosed_parse (s : Settings) (source : String) :
    (parse s source).2.countP reportsUnclosed + (closedElements s source).length =
      (tagBrackets source).countP Bracket.isOpening := by
  obtain ⟨more, hmore, hparse⟩ := parse_diagnostics s source
  have hrun : (built s source).diagnostics.countP reportsUnclosed +
      (closedElements s source).length + (built s source).stack.length =
        ((scan source).2.map (Context.diagnostic ⟨s, .of source⟩)).countP reportsUnclosed + 0 +
          (tagBrackets source).countP Bracket.isOpening :=
    (Builder.tracked_empty _).countP_unclosed _ (scan_named source)
  rw [(countP_of_calm (calm_findings _ source)).1] at hrun
  have hopen : ((built s source).stack.map (built s source).unclosed).countP reportsUnclosed =
      (built s source).stack.length :=
    Builder.countP_map_unclosed _ _
  rw [hparse, List.countP_append, List.countP_append, hopen, (countP_of_calm hmore).1]
  omega

/-- A closing tag closes an element or is reported. -/
theorem countP_unexpected_parse (s : Settings) (source : String) :
    (parse s source).2.countP reportsUnexpected + (closedElements s source).length =
      (tagBrackets source).countP Bracket.isClosing := by
  obtain ⟨more, hmore, hparse⟩ := parse_diagnostics s source
  have hrun : (built s source).diagnostics.countP reportsUnexpected +
      (closedElements s source).length =
        ((scan source).2.map (Context.diagnostic ⟨s, .of source⟩)).countP reportsUnexpected +
          (tagBrackets source).countP Bracket.isClosing :=
    (Builder.tracked_empty _).countP_unexpected _ (scan_named source)
  rw [(countP_of_calm (calm_findings _ source)).2] at hrun
  rw [hparse, List.countP_append, List.countP_append, Builder.countP_map_unclosed_unexpected,
    (countP_of_calm hmore).2]
  omega

/-- What is closed are elements of the document, each closed once. -/
theorem closedElements_isTag (s : Settings) (source : String) :
    (closedElements s source).Nodup ∧
      ∀ id ∈ closedElements s source, ((parse s source).1.node id).isTag = true := by
  obtain ⟨hnodup, hclosed⟩ := (Builder.tracked_empty
    ((scan source).2.map (Context.diagnostic ⟨s, .of source⟩))).closed_run ⟨s, .of source⟩
      (scan_named source)
  have hkeeps : (built s source).document.Keeps (parse s source).1 := by
    rw [parse_document]
    split
    · exact Document.keeps_trimBlanks _
    · exact .refl _
  refine ⟨hnodup, fun id hid => ?_⟩
  have htag : ((built s source).document.node id).tag?.isSome = true := (hclosed id hid).2
  rw [← hkeeps.tags, Node.tag?, Option.isSome_map] at htag
  exact htag

/-- **Errors about tags.**  No closing tag is unexpected and no element unclosed exactly if the tags
of the source that open an element or close one are nested.  In any case, each element that is opened
is either closed by a closing tag or reported, and each closing tag closes one or is reported. -/
theorem parse_tagErrors (s : Settings) (source : String) :
    ((∀ d ∈ (parse s source).2, reportsUnexpected d = false ∧ reportsUnclosed d = false) ↔
        WellNested SameTag (tagBrackets source)) ∧
      (parse s source).2.countP reportsUnclosed + (closedElements s source).length =
        (tagBrackets source).countP Bracket.isOpening ∧
      (parse s source).2.countP reportsUnexpected + (closedElements s source).length =
        (tagBrackets source).countP Bracket.isClosing ∧
      (closedElements s source).Nodup ∧
      ∀ id ∈ closedElements s source, ((parse s source).1.node id).isTag = true :=
  ⟨calm_parse_iff s source, countP_unclosed_parse s source, countP_unexpected_parse s source,
    closedElements_isTag s source⟩

end Stencil.Markup
