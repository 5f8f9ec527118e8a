import Stencil.Passes.Blocks
import Stencil.Passes.Types
import Stencil.Proofs.Extents

/-!
# The header of a block

The condition of a block, or the header of a loop, may be written between the name of its tag and the
end of the tag.  There it is scanned like attributes and put together again from their texts.  What
stands between attributes is left out of it, and that is more than blanks: a slash, an equals sign
or a quote with which no attribute starts is skipped as a stray character (`scanAttributes_woven`).

`Passes.blockHeader_woven` says what becomes of the header of every element: its characters are those
of the tag that the element starts with, blanks apart, exactly if no stray character was skipped.
-/

namespace Stencil.Markup

open Stencil.Text

/-- Pieces of a text in their order, and what stands around them. -/
inductive Woven : List Char → List (List Char) → List Char → Prop
  | nil (gap : List Char) : Woven gap [] gap
  | cons (gap piece : List Char) {rest gaps : List Char} {pieces : List (List Char)}
      (tail : Woven rest pieces gaps) : Woven (gap ++ (piece ++ rest)) (piece :: pieces) (gap ++ gaps)

namespace Woven

variable {text gaps : List Char} {pieces : List (List Char)}

/-- A wider first gap still weaves the pieces. -/
theorem widen (gap : List Char) (h : Woven text pieces gaps) :
    Woven (gap ++ text) pieces (gap ++ gaps) := by
  cases h with
  | nil => exact .nil _
  | cons gap' piece tail =>
      rw [← List.append_assoc, ← List.append_assoc gap]
      exact .cons _ _ tail

/-- Pieces that keep all that counts in a text. -/
theorem filter_eq (h : Woven text pieces gaps) {p : Char → Bool} (hgaps : ∀ c ∈ gaps, p c = false) :
    text.filter p = pieces.flatten.filter p := by
  induction h with
  | nil gap => simpa using hgaps
  | cons gap piece tail ih =>
      obtain ⟨hgap, hrest⟩ := List.forall_mem_append.mp hgaps
      have hnone : gap.filter p = [] := by simpa using hgap
      simp [hnone, ih hrest]

/-- The pieces stand in the text, in order. -/
theorem sublist (h : Woven text pieces gaps) : pieces.flatten.Sublist text := by
  induction h with
  | nil => exact List.nil_sublist _
  | cons gap piece tail ih =>
      exact ((List.Sublist.refl piece).append ih).trans (List.sublist_append_right _ _)

/-- The characters of one kind in the text are those in the pieces and those in the gaps. -/
theorem length_filter (h : Woven text pieces gaps) (p : Char → Bool) :
    (text.filter p).length = (pieces.flatten.filter p).length + (gaps.filter p).length := by
  induction h with
  | nil => simp
  | cons gap piece tail ih =>
      simp only [List.filter_append, List.length_append, ih, List.flatten_cons]
      omega

/-- The pieces have all that counts in the text exactly if nothing that counts stands around
them. -/
theorem filter_eq_iff (h : Woven text pieces gaps) (p : Char → Bool) :
    pieces.flatten.filter p = text.filter p ↔ ∀ c ∈ gaps, p c = false := by
  constructor
  · intro heq
    have hlength := h.length_filter p
    rw [heq] at hlength
    have hnone : gaps.filter p = [] := List.length_eq_zero_iff.mp (by omega)
    simpa using hnone
  · intro hgaps
    exact (h.filter_eq hgaps).symm

end Woven

/-- A character that is no blank, with which no attribute starts and at which the tag does not
end. -/
def isStray (c : Char) : Bool := c == '/' || c == '=' || c == '"' || c == '\''

/-- The end of a tag, and what follows it.  A tag without an end is the last thing in a text. -/
inductive TagEnd : Bool → List Char → List Char → Prop
  | plain (rest : List Char) : TagEnd false ['>'] rest
  | selfClosing (rest : List Char) : TagEnd true ['/', '>'] rest
  | missing : TagEnd false [] []

/-- No attribute starts with a stray character only. -/
theorem isStray_of_scanAttribute {c : Char} {rest : List Char}
    (h : scanAttribute (c :: rest) = none) (hblank : isBlank c = false) (hend : c ≠ '>') :
    isStray c = true := by
  have hpart : isAttributePart c = false := by
    unfold scanAttribute at h
    split at h
    · simp at h
    · dsimp only at h
      split at h
      · next hname =>
          by_contra hpart
          rw [Bool.not_eq_false] at hpart
          simp [hpart] at hname
      · split at h <;> simp at h
  simp only [isAttributePart, hblank, Bool.false_or, Bool.not_eq_false', Bool.or_eq_true,
    beq_iff_eq] at hpart
  simp only [isStray, Bool.or_eq_true, beq_iff_eq]
  grind

/-- **The inside of a tag.**  It consists of its attributes, and of blanks and stray characters around
them. -/
theorem scanAttributes_woven (offset : Nat) (cs : List Char) : ∃ inside last gaps,
    cs = inside ++ (last ++ (scanAttributes offset cs).rest) ∧
      (scanAttributes offset cs).stop = offset + byteSize (inside ++ last) ∧
      TagEnd (scanAttributes offset cs).selfClosing last (scanAttributes offset cs).rest ∧
      Woven inside ((scanAttributes offset cs).attributes.map (·.raw.toList)) gaps ∧
      ∀ c ∈ gaps, isBlank c = true ∨ isStray c = true := by
  have hblank : ∀ (cs : List Char), ∀ c ∈ cs.takeWhile isBlank,
      isBlank c = true ∨ isStray c = true := by
    intro cs c hc
    exact .inl (List.all_eq_true.mp List.all_takeWhile c hc)
  fun_induction scanAttributes offset cs with
  | case1 offset cs start h =>
      exact ⟨_, [], _, by simpa using eq_of_dropWhile h, by simp [start], .missing, .nil _, hblank cs⟩
  | case2 offset cs start rest h =>
      refine ⟨_, ['/', '>'], _, eq_of_dropWhile h, ?_, .selfClosing rest, .nil _, hblank cs⟩
      simp only [byteSize_append, start, ← Nat.add_assoc]
      rfl
  | case3 offset cs start rest h =>
      refine ⟨_, ['>'], _, eq_of_dropWhile h, ?_, .plain rest, .nil _, hblank cs⟩
      simp only [byteSize_append, start, ← Nat.add_assoc]
      rfl
  | case4 offset cs start c rest _ hend h hlen ha ih =>
      obtain ⟨inside, last, gaps, hrest, hstop, htag, hwoven, hgaps⟩ := ih
      have hstray : isStray c = true := isStray_of_scanAttribute ha (head_of_dropWhile h) hend
      refine ⟨cs.takeWhile isBlank ++ [c] ++ inside, last, cs.takeWhile isBlank ++ [c] ++ gaps, ?_, ?_,
        htag, hwoven.widen _, ?_⟩
      · rw [List.append_assoc, List.append_assoc, ← hrest]
        exact eq_of_dropWhile h
      · rw [hstop]
        simp only [byteSize_append, byteSize_cons, byteSize_nil, start]
        omega
      · intro x hx
        rcases List.mem_append.mp hx with hx | hx
        · rcases List.mem_append.mp hx with hx | hx
          · exact hblank cs x hx
          · rw [List.mem_singleton.mp hx]
            exact .inr hstray
        · exact hgaps x hx
  | case5 offset cs start c rest _ _ h hlen a ha hlt token more found ih =>
      obtain ⟨inside, last, gaps, hrest, hstop, htag, hwoven, hgaps⟩ := ih
      have hraw : (c :: rest).take ((c :: rest).length - a.rest.length) ++ a.rest = c :: rest :=
        List.suffix_iff_eq_append.mp (scanAttribute_suffix ha)
      have htoken : token.raw.toList = (c :: rest).take ((c :: rest).length - a.rest.length) := by
        simp [token, AttributeScan.token]
      refine ⟨cs.takeWhile isBlank ++ (token.raw.toList ++ inside), last,
        cs.takeWhile isBlank ++ gaps, ?_, ?_, htag, .cons _ _ hwoven, ?_⟩
      · show cs = _ ++ (last ++ more.rest)
        rw [List.append_assoc, List.append_assoc, ← hrest, htoken, hraw]
        exact eq_of_dropWhile h
      · show more.stop = _
        rw [hstop, htoken]
        simp only [byteSize_append, token, AttributeScan.token, start]
        omega
      · intro x hx
        rcases List.mem_append.mp hx with hx | hx
        · exact hblank cs x hx
        · exact hgaps x hx

/-- A scanner has taken the front of a text and left the rest. -/
def Scan.Cuts (offset : Nat) (cs : List Char) (s : Scan) : Prop :=
  ∃ taken, cs = taken ++ s.rest ∧ s.stop = offset + byteSize taken

/-- A declaration is cut from the front. -/
theorem scanDeclaration_cuts (offset : Nat) (cs : List Char) :
    (scanDeclaration offset cs).Cuts offset cs := by
  unfold scanDeclaration
  split
  · next before rest h => exact ⟨before ++ ['>'], breakOn_eq h, rfl⟩
  · exact ⟨cs, by simp [scanText], rfl⟩

/-- A comment is cut from the front. -/
theorem scanComment_cuts (offset : Nat) (body : List Char) :
    (scanComment offset (['<', '!', '-', '-'] ++ body)).Cuts offset
      (['<', '!', '-', '-'] ++ body) := by
  have hfour : byteSize ['<', '!', '-', '-'] = 4 := rfl
  have hthree : byteSize ['-', '-', '>'] = 3 := rfl
  have hbody : (['<', '!', '-', '-'] ++ body).drop 4 = body := rfl
  simp only [scanComment, hbody]
  split
  · next content rest h =>
      refine ⟨['<', '!', '-', '-'] ++ (content ++ ['-', '-', '>']), ?_, ?_⟩
      · have hcut : body = content ++ ['-', '-', '>'] ++ rest := breakOn_eq h
        rw [hcut]
        simp
      · simp only [byteSize_append, hfour, hthree]
        omega
  · refine ⟨['<', '!', '-', '-'] ++ body, by simp, ?_⟩
    simp only [byteSize_append, hfour]
    omega

/-- A closing tag is cut from the front. -/
theorem scanClosing_cuts (offset : Nat) (cs : List Char) :
    (scanClosing offset ('<' :: '/' :: cs)).Cuts offset ('<' :: '/' :: cs) := by
  obtain ⟨inside, hcs, -, hstop⟩ := scanClosing_tile offset cs
  exact ⟨_, hcs, hstop⟩

/-- A raw body is cut from the front. -/
theorem scanRaw_cuts {name : String} (hname : isRawText name = true) (offset : Nat)
    (cs : List Char) : (scanRaw name offset cs).Cuts offset cs := by
  have hcut := rawSpan_eq (rawNeedle name) cs
  have hclose := closesRaw_rawSpan (rawNeedle name) cs
  have hneedle : "</".toList ++ name.toList.map lowerChar = rawNeedle name := rfl
  unfold scanRaw
  rw [hneedle]
  generalize rawSpan (rawNeedle name) cs = cut at *
  obtain ⟨raw, rest⟩ := cut
  simp only at hcut hclose ⊢
  subst hcut
  cases rest with
  | nil => exact ⟨raw, rfl, rfl⟩
  | cons c more =>
      obtain ⟨inner, hinner, -⟩ := lower_of_closesRaw hname (hclose.resolve_left (by simp))
      rw [hinner]
      obtain ⟨taken, htaken, hstop⟩ := scanClosing_cuts (offset + byteSize raw) inner
      refine ⟨raw ++ taken, ?_, ?_⟩
      · rw [List.append_assoc, ← htaken]
      · rw [byteSize_append, ← Nat.add_assoc]
        exact hstop

/-- An opening tag cut out of a text. -/
structure TagCut where
  before : List Char
  /-- What stands between the name of the tag and its end. -/
  inside : List Char
  last : List Char
  after : List Char
  /-- What stands around the attributes. -/
  gaps : List Char

/-- The cut is that of an opening tag in a text that starts at an offset. -/
structure TagCut.Fits (x : TagCut) (offset : Nat) (cs : List Char) (t : Token) (name : String)
    (attributes : List AttributeToken) (selfClosing : Bool) : Prop where
  text : cs = x.before ++ ('<' :: (name.toList ++ (x.inside ++ x.last)) ++ x.after)
  start : t.start = offset + byteSize x.before
  stop : t.stop = t.start + byteSize ('<' :: (name.toList ++ (x.inside ++ x.last)))
  ended : TagEnd selfClosing x.last x.after
  woven : Woven x.inside (attributes.map (·.raw.toList)) x.gaps
  gaps : ∀ c ∈ x.gaps, isBlank c = true ∨ isStray c = true

/-- Every opening tag among the tokens is in the text. -/
def TagsIn (offset : Nat) (cs : List Char) (tokens : List Token) : Prop :=
  ∀ t ∈ tokens, ∀ name attributes selfClosing, t.lexeme = .opening name attributes selfClosing →
    ∃ x : TagCut, x.Fits offset cs t name attributes selfClosing

/-- The tags in the end of a text are in the text. -/
theorem TagsIn.of_suffix {offset : Nat} {rest : List Char} {tokens : List Token} (taken : List Char)
    (h : TagsIn (offset + byteSize taken) rest tokens) : TagsIn offset (taken ++ rest) tokens := by
  intro t ht name attributes selfClosing hlexeme
  obtain ⟨x, hfits⟩ := h t ht name attributes selfClosing hlexeme
  refine ⟨{ x with before := taken ++ x.before }, ?_, ?_, hfits.stop, hfits.ended, hfits.woven,
    hfits.gaps⟩
  · rw [hfits.text, List.append_assoc]
  · rw [hfits.start, byteSize_append, Nat.add_assoc]

/-- Tokens other than opening tags. -/
theorem tagsIn_of_closed {offset : Nat} {cs : List Char} {tokens : List Token}
    (h : ∀ t ∈ tokens, t.lexeme.openTag? = none) : TagsIn offset cs tokens := by
  intro t ht name attributes selfClosing hlexeme
  have hnone := h t ht
  simp [hlexeme, Lexeme.openTag?] at hnone

/-- A closing tag has no opening one among its tokens. -/
theorem openTag?_scanClosing (offset : Nat) (cs : List Char) :
    ∀ t ∈ (scanClosing offset cs).tokens, t.lexeme.openTag? = none := by
  unfold scanClosing
  dsimp only
  split <;> simp [Lexeme.openTag?]

/-- A raw body has no opening tag among its tokens. -/
theorem openTag?_scanRaw (name : String) (offset : Nat) (cs : List Char) :
    ∀ t ∈ (scanRaw name offset cs).tokens, t.lexeme.openTag? = none := by
  unfold scanRaw
  dsimp only
  split
  · simp [Lexeme.openTag?]
  · exact List.forall_mem_cons.mpr ⟨rfl, openTag?_scanClosing _ _⟩

/-- An opening tag is in the text it is scanned from, and what it leaves is the rest. -/
theorem scanOpening_tags (offset : Nat) (cs : List Char) :
    TagsIn offset ('<' :: cs) (scanOpening offset ('<' :: cs)).tokens ∧
      (scanOpening offset ('<' :: cs)).Cuts offset ('<' :: cs) := by
  have hname : cs.takeWhile isTagPart ++ cs.dropWhile isTagPart = cs :=
    List.takeWhile_append_dropWhile
  unfold scanOpening
  simp only [List.drop_succ_cons, List.drop_zero]
  generalize cs.takeWhile isTagPart = name at *
  generalize cs.dropWhile isTagPart = after at *
  obtain ⟨inside, last, gaps, hcut, hstop, hend, hwoven, hgaps⟩ :=
    scanAttributes_woven (offset + 1 + byteSize name) after
  generalize scanAttributes (offset + 1 + byteSize name) after = tag at *
  have hsize : tag.stop = offset + byteSize ('<' :: (name ++ (inside ++ last))) := by
    have hone : '<'.utf8Size = 1 := rfl
    rw [hstop, byteSize_cons, byteSize_append name, hone]
    omega
  have htext : '<' :: cs = '<' :: (name ++ (inside ++ last)) ++ tag.rest := by
    rw [← hname, hcut]
    simp
  have htag : TagsIn offset ('<' :: cs)
      [⟨.opening (String.ofList name) tag.attributes tag.selfClosing, offset, tag.stop⟩] := by
    refine List.forall_mem_singleton.mpr ?_
    rintro _ _ _ ⟨⟩
    refine ⟨⟨[], inside, last, tag.rest, gaps⟩, ?_, rfl, ?_, hend, hwoven, hgaps⟩
    · simpa using htext
    · simpa using hsize
  split
  · next hraw =>
      rw [Bool.and_eq_true] at hraw
      refine ⟨?_, ?_⟩
      · intro t ht
        rcases List.mem_cons.mp ht with rfl | ht
        · exact htag _ List.mem_cons_self
        · exact tagsIn_of_closed (openTag?_scanRaw _ _ _) t ht
      · obtain ⟨taken, htaken, hrest⟩ := scanRaw_cuts hraw.2 tag.stop tag.rest
        refine ⟨'<' :: (name ++ (inside ++ last)) ++ taken, ?_, ?_⟩
        · rw [htext, List.append_assoc, ← htaken]
        · rw [byteSize_append, ← Nat.add_assoc, ← hsize]
          exact hrest
  · exact ⟨htag, ⟨_, htext, hsize⟩⟩

/-- What stands next in a text is cut off, and if it is an opening tag, that tag is there. -/
theorem scanNext_tags (offset : Nat) (c : Char) (cs : List Char) :
    TagsIn offset (c :: cs) (scanNext offset c cs).tokens ∧
      (scanNext offset c cs).Cuts offset (c :: cs) := by
  unfold scanNext
  dsimp only
  split
  · next hcomment =>
      obtain ⟨body, hbody⟩ := List.isPrefixOf_iff_prefix.mp hcomment
      rw [← hbody]
      refine ⟨tagsIn_of_closed ?_, scanComment_cuts offset body⟩
      unfold scanComment
      dsimp only
      split <;> simp [Lexeme.openTag?]
  · split
    · refine ⟨tagsIn_of_closed ?_, scanDeclaration_cuts offset (c :: cs)⟩
      unfold scanDeclaration
      split <;> simp [scanText, Lexeme.openTag?]
    · split
      · next hmarkup =>
          rcases startsMarkup_cases hmarkup with ⟨d, rest, heq, hd⟩ | ⟨d, rest, heq, hne, hd⟩
          · obtain ⟨rfl, rfl⟩ := List.cons.inj heq
            exact ⟨tagsIn_of_closed (openTag?_scanClosing _ _), scanClosing_cuts offset (d :: rest)⟩
          · obtain ⟨rfl, rfl⟩ := List.cons.inj heq
            have hslash : ((d :: rest).head? == some '/') = false := by simpa using hne
            rw [hslash]
            exact scanOpening_tags offset (d :: rest)
      · have hcut := textSpan_eq (braceJump (c :: cs)) cs
        refine ⟨tagsIn_of_closed (by simp [scanText, Lexeme.openTag?]), ?_⟩
        refine ⟨c :: (textSpan (braceJump (c :: cs)) cs).1, ?_, rfl⟩
        rw [List.cons_append]
        exact congrArg (c :: ·) hcut.symm

/-- The tokens of a scan have their tags in the source, in order. -/
theorem scanFrom_tags (offset : Nat) (cs : List Char) : TagsIn offset cs (scanFrom offset cs).1 := by
  fun_induction scanFrom offset cs with
  | case1 offset => exact tagsIn_of_closed (by simp)
  | case2 offset c cs s tokens findings h ih =>
      rw [h] at ih
      obtain ⟨hfirst, taken, htaken, hstop⟩ := scanNext_tags offset c cs
      have hrest : TagsIn offset (c :: cs) tokens := by
        rw [htaken]
        apply TagsIn.of_suffix
        rw [← hstop]
        exact ih
      intro t ht
      rcases List.mem_append.mp ht with ht | ht
      · exact hfirst t ht
      · exact hrest t ht

/-- Joining texts makes no opening tag. -/
theorem mem_of_mem_joinTexts {tokens : List Token} {t : Token} (h : t ∈ joinTexts tokens)
    (htext : t.lexeme.isText = false) : t ∈ tokens := by
  induction tokens with
  | nil => simp [joinTexts] at h
  | cons u rest ih =>
      simp only [joinTexts] at h
      split at h
      · next a b start stop more hlex hjoin =>
          rcases List.mem_cons.mp h with rfl | hmore
          · simp [Lexeme.isText] at htext
          · exact List.mem_cons_of_mem _ (ih (by rw [hjoin]; exact List.mem_cons_of_mem _ hmore))
      · rcases List.mem_cons.mp h with rfl | hmore
        · exact List.mem_cons_self
        · exact List.mem_cons_of_mem _ (ih hmore)

/-- **Opening tags are in the source.** -/
theorem scan_tags (source : String) : TagsIn 0 source.toList (scan source).1 := by
  intro t ht name attributes selfClosing hlexeme
  exact scanFrom_tags 0 source.toList t
    (mem_of_mem_joinTexts ht (by simp [hlexeme, Lexeme.isText])) name attributes selfClosing hlexeme

end Stencil.Markup

namespace Stencil.Passes

open Stencil.Markup Stencil.Text

/-- The characters of a text that are not blank. -/
def ink (cs : List Char) : List Char := cs.filter (!isBlank ·)

/-- Texts joined by spaces have the ink of the texts. -/
theorem ink_joinWith (texts : List String) :
    ink (joinWith " " texts).toList = ink (texts.map String.toList).flatten := by
  rw [joinWith, String.toList_intercalate]
  generalize texts.map String.toList = pieces
  have hspace : ink " ".toList = [] := rfl
  unfold ink at hspace ⊢
  induction pieces with
  | nil => rfl
  | cons piece rest ih =>
      cases rest with
      | nil => simp [List.intercalate]
      | cons next rest =>
          rw [List.intercalate_cons_cons, List.filter_append, List.filter_append, hspace, ih]
          simp

/-- The header of a block whose condition is neither a value nor in braces. -/
theorem blockHeader_of_plain {e : Element}
    (hplain : ∀ a ∈ e.attributes, a.fullName ≠ "value" ∧ a.isAnonymous = false) :
    blockHeader e = joinWith " " (e.attributes.map (·.raw)) := by
  have hvalue : e.attribute? "value" = none := by
    rw [Element.attribute?, List.find?_eq_none]
    intro a ha
    simpa using (hplain a ha).1
  have hall : e.attributes.filter (·.fullName != "value") = e.attributes := by
    rw [List.filter_eq_self]
    intro a ha
    simpa using (hplain a ha).1
  have htokens : e.attributes.map headerToken = e.attributes.map (·.raw) := by
    apply List.map_congr_left
    intro a ha
    unfold headerToken
    split
    · rw [(hplain a ha).2]
      rfl
    · rfl
  simp only [blockHeader, hvalue, hall, htokens, Option.bind_none]

/-- Changing attributes but for their name, value and text does not change the header. -/
theorem blockHeader_map (e : Element) {f : Attribute → Attribute}
    (hname : ∀ a, (f a).fullName = a.fullName) (htext : ∀ a, (f a).text? = a.text?)
    (htoken : ∀ a, headerToken (f a) = headerToken a) :
    blockHeader { e with attributes := e.attributes.map f } = blockHeader e := by
  have hvalue : ((e.attributes.map f).find? (·.fullName == "value")).bind Attribute.text? =
      (e.attributes.find? (·.fullName == "value")).bind Attribute.text? := by
    rw [List.find?_map]
    simp only [Function.comp_def, hname]
    cases e.attributes.find? (·.fullName == "value") with
    | none => rfl
    | some a => exact htext a
  simp only [blockHeader, Element.attribute?, hvalue, List.filter_map, List.map_map,
    Function.comp_def, hname, htoken]

/-- Giving an element its type does not change its header, unless it is named as a component. -/
theorem blockHeader_typeElement {e e' : Element} {n : Node}
    (hname : ∀ a ∈ e.attributes, a.fullName ≠ fragmentName)
    (he : (typeElement n e).1.element? = some e') : blockHeader e' = blockHeader e := by
  have hnone : e.attributes.findIdx? (·.fullName == fragmentName) = none := by
    rw [List.findIdx?_eq_none_iff]
    intro a ha
    simpa using hname a ha
  have htake : takeFragment e = (none, e) := by simp [takeFragment, hnone]
  simp only [typeElement, htake, Node.element?, Option.some.injEq] at he
  subst he
  exact blockHeader_map e (fun _ => rfl) (fun _ => rfl) fun _ => rfl

/-- What becomes of the header of an element, which is a node of what is read from a source, and of
the tag that it starts with. -/
structure HeaderFrom (s : Settings) (source : String) (id : Nat) (e : Element) (t : Token)
    (attributes : List AttributeToken) (x : TagCut) : Prop where
  token : t ∈ (scan source).1
  /-- The tag stands where the element starts. -/
  start : ((parse s.indexed source).1.node id).position.bind (·.start) = some t.start
  lexeme : t.lexeme = .opening e.name attributes e.selfClosing
  /-- The tag stands in the source, with blanks and stray characters around its attributes. -/
  fits : x.Fits 0 source.toList t e.name attributes e.selfClosing
  /-- The header has the characters of the attributes. -/
  attributes : ink (blockHeader e).toList = ink (attributes.flatMap (·.raw.toList))
  /-- Nothing is added or moved. -/
  order : (ink (blockHeader e).toList).Sublist (ink x.inside)
  /-- Nothing is lost exactly if nothing but blanks stands around the attributes. -/
  whole : ink (blockHeader e).toList = ink x.inside ↔ ∀ c ∈ x.gaps, isBlank c = true
  /-- The header is the same once the element has its type. -/
  typed : (∀ a ∈ e.attributes, a.fullName ≠ fragmentName) → ∀ n e',
    (typeElement n e).1.element? = some e' → blockHeader e' = blockHeader e

/-- **What becomes of a header.**  Let an element of a template have no attribute named `value` and
none in braces alone.  Then its header has the characters of the attributes in the tag that it starts
with, blanks apart, none added and none out of place; and it has all characters between the name and
the end of that tag exactly if no stray character stands there. -/
theorem blockHeader_woven {s : Settings} {source : String} {id : Nat} {e : Element}
    (he : ((parse s source).1.node id).element? = some e)
    (hplain : ∀ a ∈ e.attributes, a.fullName ≠ "value" ∧ a.isAnonymous = false) :
    ∃ t attributes x, HeaderFrom s source id e t attributes x := by
  obtain ⟨t, ht, htag, hstart⟩ := parse_element_tag he
  obtain ⟨attributes, hlexeme, hspelling⟩ : ∃ attributes,
      t.lexeme = .opening e.name attributes e.selfClosing ∧
        attributes.map AttributeToken.spelling = e.attributes.map Attribute.spelling := by
    unfold Lexeme.openTag? at htag
    split at htag
    · next name attributes selfClosing hlexeme =>
        obtain ⟨rfl, rfl, hattributes⟩ := OpenTag.mk.inj (Option.some.inj htag)
        exact ⟨attributes, hlexeme, hattributes⟩
    · simp at htag
  have hraws : attributes.map (·.raw) = e.attributes.map (·.raw) := by
    have hmap := congrArg (List.map Spelling.raw) hspelling
    rw [List.map_map, List.map_map] at hmap
    exact hmap
  obtain ⟨x, hfits⟩ := scan_tags source t ht e.name attributes e.selfClosing hlexeme
  have hink : ink (blockHeader e).toList = ink (attributes.map (·.raw.toList)).flatten := by
    rw [blockHeader_of_plain hplain, ← hraws, ink_joinWith, List.map_map]
    rfl
  have hblank : (∀ c ∈ x.gaps, (!isBlank c) = false) ↔ ∀ c ∈ x.gaps, isBlank c = true := by simp
  refine ⟨t, attributes, x, ht, hstart, hlexeme, hfits, ?_, ?_, ?_, ?_⟩
  · rw [hink, List.flatMap_def]
  · rw [hink]
    exact hfits.woven.sublist.filter _
  · rw [hink, ← hblank]
    exact hfits.woven.filter_eq_iff _
  · intro hname n e' he'
    exact blockHeader_typeElement hname he'

/-- A loop whose header is kept whole. -/
theorem blockHeader_woven_loop :
    let s : Settings := ⟨true, false, false, true, false, false⟩
    let source := "<for rows as row, i key row.id>x</for>"
    ∃ e, ((parse s source).1.node 1).element? = some e ∧
      (∀ a ∈ e.attributes, a.fullName ≠ "value" ∧ a.isAnonymous = false) ∧
      blockHeader e = "rows as row, i key row.id" ∧
      ∃ t attributes x, HeaderFrom s source 1 e t attributes x := by
  obtain ⟨e, he, hplain, hheader⟩ : ∃ e, ((parse ⟨true, false, false, true, false, false⟩
      "<for rows as row, i key row.id>x</for>").1.node 1).element? = some e ∧
      (∀ a ∈ e.attributes, a.fullName ≠ "value" ∧ a.isAnonymous = false) ∧
      blockHeader e = "rows as row, i key row.id" := by
    refine ⟨⟨"for", false, false, ["rows", "as", "row,", "i", "key", "row.id"].map fun raw =>
      { name := .split raw, value := .empty, raw }, none⟩, ?_⟩
    decide +kernel
  exact ⟨e, he, hplain, hheader, blockHeader_woven he hplain⟩

/-- Around a text in quotes, the quotes are stray characters, and the header has lost them: the
condition compares with a variable. -/
theorem blockHeader_loses_quotes :
    let s : Settings := ⟨true, false, false, true, false, false⟩
    let source := "<if a == \"b\">x</if>"
    ∃ e, ((parse s source).1.node 1).element? = some e ∧
      (∀ a ∈ e.attributes, a.fullName ≠ "value" ∧ a.isAnonymous = false) ∧
      source.toList = "<if".toList ++ " a == \"b\"".toList ++ ">x</if>".toList ∧
      blockHeader e = "a == b" ∧
      ink (blockHeader e).toList ≠ ink " a == \"b\"".toList := by
  refine ⟨⟨"if", false, false, [{ name := .split "a", value := .text "=" .unquoted, raw := "a ==" },
    { name := .split "b", value := .empty, raw := "b" }], none⟩, ?_⟩
  decide +kernel

end Stencil.Passes
