import Mathlib.Data.List.Infix
import Stencil.Markup.Scan
import Stencil.Proofs.Letters

/-!
# The scanners leave nothing out

Every scanner of markup cuts its text in two: what it has taken and what it leaves.  `Tiled` puts
these cuts together for a whole template.  It is a relation between a text that starts at an offset
and tokens, one constructor for each way in which the next token can be made, and `scanFrom_tiled`
says that scanning never does anything else.
-/

namespace Stencil.Markup

open Stencil.Text

/-- What is in front of the characters that are left. -/
theorem eq_of_dropWhile {p : Char → Bool} {cs tail : List Char} (h : cs.dropWhile p = tail) :
    cs = cs.takeWhile p ++ tail := by
  rw [← h, List.takeWhile_append_dropWhile]

/-- A text and what is behind it are the characters given. -/
theorem textSpan_eq (jump : Nat) (cs : List Char) :
    (textSpan jump cs).1 ++ (textSpan jump cs).2 = cs := by
  induction cs generalizing jump with
  | nil => rfl
  | cons c rest ih =>
      simp only [textSpan]
      split
      · rfl
      · exact congrArg (c :: ·) (ih _)

/-- What is behind a quoted value is the end of the characters given. -/
theorem quotedSpan_suffix {quote : Char} {jump : Nat} {cs value rest : List Char}
    (h : quotedSpan quote jump cs = (value, some rest)) : rest <:+ cs := by
  induction cs generalizing jump value with
  | nil => simp [quotedSpan] at h
  | cons c tail ih =>
      simp only [quotedSpan] at h
      split at h
      · simp only [Prod.mk.injEq, Option.some.injEq] at h
        exact h.2 ▸ List.suffix_cons c tail
      · simp only [Prod.mk.injEq] at h
        exact (ih (Prod.ext rfl h.2)).trans (List.suffix_cons c tail)

/-- What is behind an unquoted value is the end of the characters given. -/
theorem unquotedSpan_suffix (cs : List Char) : (unquotedSpan cs).2 <:+ cs := by
  induction cs with
  | nil => simp [unquotedSpan]
  | cons c rest ih =>
      simp only [unquotedSpan]
      split
      · exact List.suffix_rfl
      · exact ih.trans (List.suffix_cons c rest)

/-- What is behind a value in quotes or braces is the end of the characters given. -/
private theorem scanQuoted_suffix (mark : Char) (quote : Quote) (cs : List Char) :
    (scanQuoted mark quote cs).rest <:+ cs := by
  unfold scanQuoted
  split
  · next h => exact quotedSpan_suffix h
  · exact List.nil_suffix

/-- What is behind a value of any kind is the end of the characters given. -/
theorem scanValue_suffix (cs : List Char) : (scanValue cs).rest <:+ cs := by
  unfold scanValue
  split
  · exact (scanQuoted_suffix _ _ _).trans (List.suffix_cons _ _)
  · exact (scanQuoted_suffix _ _ _).trans (List.suffix_cons _ _)
  · next rest =>
      split
      · next inner tail h =>
          have htail : tail <:+ inner ++ '\x7d' :: tail :=
            ⟨inner ++ ['\x7d'], by simp⟩
          rw [closing_eq h]
          exact htail.trans (List.suffix_cons _ _)
      · exact List.nil_suffix
  · exact unquotedSpan_suffix _

/-- What is scanned as an attribute: a value without a name, a name with a value behind an equals
sign, or a name without a value. -/
inductive ScannedFrom (cs : List Char) : AttributeScan → Prop
  | value (hbrace : cs.head? = some '\x7b') :
      ScannedFrom cs ⟨[], some ((scanValue cs).value, (scanValue cs).quote), (scanValue cs).problem,
        (scanValue cs).rest⟩
  | assigned {name equals text : List Char} (hne : name ≠ [])
      (hpart : ∀ c ∈ name, isAttributePart c = true) (hstart : name.head? ≠ some '\x7b')
      (hcs : cs = name ++ (equals ++ text)) (htext : ∀ c ∈ text.head?, isBlank c = false) :
      ScannedFrom cs ⟨name, some ((scanValue text).value, (scanValue text).quote),
        (scanValue text).problem, (scanValue text).rest⟩
  | named {name rest : List Char} (hne : name ≠ [])
      (hpart : ∀ c ∈ name, isAttributePart c = true) (hstart : name.head? ≠ some '\x7b')
      (hcs : cs = name ++ rest) : ScannedFrom cs ⟨name, none, none, rest⟩

/-- An attribute is scanned from the characters in front. -/
theorem scannedFrom_of_scanAttribute {cs : List Char} {a : AttributeScan}
    (h : scanAttribute cs = some a) : ScannedFrom cs a := by
  unfold scanAttribute at h
  split at h
  · next hbrace =>
      obtain rfl := Option.some.inj h
      exact .value (beq_iff_eq.mp hbrace)
  · next hbrace =>
      dsimp only at h
      split at h
      · cases h
      · next hname =>
          have hne : cs.takeWhile isAttributePart ≠ [] := by simpa using hname
          have hpart : ∀ c ∈ cs.takeWhile isAttributePart, isAttributePart c = true :=
            List.all_eq_true.mp List.all_takeWhile
          have hcs : cs = cs.takeWhile isAttributePart ++ cs.dropWhile isAttributePart :=
            eq_of_dropWhile rfl
          have hstart : (cs.takeWhile isAttributePart).head? ≠ some '\x7b' := by
            intro hhead
            rw [hcs, List.head?_append, hhead] at hbrace
            exact hbrace rfl
          split at h
          · next tail htail =>
              obtain rfl := Option.some.inj h
              have hequals : cs = cs.takeWhile isAttributePart ++
                  ((cs.dropWhile isAttributePart).takeWhile isBlank ++ '=' :: tail.takeWhile isBlank ++
                    tail.dropWhile isBlank) := by
                rw [List.append_assoc, List.cons_append, ← eq_of_dropWhile rfl, ← eq_of_dropWhile htail]
                exact hcs
              refine .assigned hne hpart hstart hequals ?_
              intro c hc
              have hstop := List.head?_dropWhile_not isBlank tail
              rw [Option.mem_def.mp hc] at hstop
              simpa using hstop
          · obtain rfl := Option.some.inj h
            exact .named hne hpart hstart hcs

/-- What an attribute leaves is the end of what it was given. -/
theorem scanAttribute_suffix {cs : List Char} {a : AttributeScan} (h : scanAttribute cs = some a) :
    a.rest <:+ cs := by
  cases scannedFrom_of_scanAttribute h with
  | value => exact scanValue_suffix cs
  | @assigned name equals text _ _ _ hcs =>
      have htext : text <:+ cs := by
        rw [hcs, ← List.append_assoc]
        exact List.suffix_append _ _
      exact (scanValue_suffix text).trans htext
  | named _ _ _ hcs =>
      rw [hcs]
      exact List.suffix_append _ _

/-- Attributes in a text that starts at an offset: one after another, each with some characters of
its own. -/
inductive Ranged : Nat → List Char → List AttributeToken → Prop
  | nil (offset : Nat) (cs : List Char) : Ranged offset cs []
  | cons {offset : Nat} {gap raw rest : List Char} {a : AttributeToken} {more : List AttributeToken}
      (hne : raw ≠ []) (hraw : a.raw = String.ofList raw)
      (hstart : a.start = offset + byteSize gap) (hstop : a.stop = a.start + byteSize raw)
      (tail : Ranged a.stop rest more) : Ranged offset (gap ++ (raw ++ rest)) (a :: more)

/-- Blanks in front of attributes and the end of the tag behind them belong to the tag. -/
theorem Ranged.widen {offset : Nat} {cs : List Char} {attributes : List AttributeToken}
    (gap : List Char) (h : Ranged (offset + byteSize gap) cs attributes) :
    Ranged offset (gap ++ cs) attributes := by
  cases h with
  | nil => exact .nil _ _
  | @cons _ gap' raw rest a more hne hraw hstart hstop tail =>
      rw [← List.append_assoc]
      exact .cons hne hraw (by rw [hstart, byteSize_append]; omega) hstop tail

/-- The inside of a tag is what stands before its rest. -/
theorem scanAttributes_ranged (offset : Nat) (cs : List Char) :
    ∃ inside, cs = inside ++ (scanAttributes offset cs).rest ∧
      (scanAttributes offset cs).stop = offset + byteSize inside ∧
      Ranged offset inside (scanAttributes offset cs).attributes := by
  -- in every case the blanks in front are the first part of the inside (`eq_of_dropWhile`)
  fun_induction scanAttributes offset cs with
  | case1 offset cs start h =>
      refine ⟨cs.takeWhile isBlank, eq_of_dropWhile h, rfl, .nil _ _⟩
  | case2 offset cs start rest h =>
      refine ⟨cs.takeWhile isBlank ++ ['/', '>'], ?_, ?_, .nil _ _⟩
      · rw [List.append_assoc]
        exact eq_of_dropWhile h
      · simp only [byteSize_append, start]
        rfl
  | case3 offset cs start rest h =>
      refine ⟨cs.takeWhile isBlank ++ ['>'], ?_, ?_, .nil _ _⟩
      · rw [List.append_assoc]
        exact eq_of_dropWhile h
      · simp only [byteSize_append, start]
        rfl
  | case4 offset cs start c rest _ _ h hlen ha ih =>
      obtain ⟨inside, hrest, hstop, hranged⟩ := ih
      refine ⟨cs.takeWhile isBlank ++ [c] ++ inside, ?_, ?_, ?_⟩
      · rw [List.append_assoc, List.append_assoc, ← hrest]
        exact eq_of_dropWhile h
      · rw [hstop, byteSize_append, byteSize_append]
        simp only [byteSize_cons, byteSize_nil, start]
        omega
      · apply Ranged.widen
        rwa [byteSize_append, ← Nat.add_assoc]
  | case5 offset cs start c rest _ _ h hlen a ha hlt token more found ih =>
      obtain ⟨inside, hrest, hstop, hranged⟩ := ih
      have hraw : (c :: rest).take ((c :: rest).length - a.rest.length) ++ a.rest = c :: rest :=
        List.suffix_iff_eq_append.mp (scanAttribute_suffix ha)
      have hne : (c :: rest).take ((c :: rest).length - a.rest.length) ≠ [] := by
        intro hnil
        have hlt := length_scanAttribute ha
        rw [hnil, List.nil_append] at hraw
        rw [hraw] at hlt
        exact Nat.lt_irrefl _ hlt
      refine ⟨cs.takeWhile isBlank ++
        ((c :: rest).take ((c :: rest).length - a.rest.length) ++ inside), ?_, ?_, ?_⟩
      · show cs = _ ++ more.rest
        rw [List.append_assoc, List.append_assoc, ← hrest, hraw]
        exact eq_of_dropWhile h
      · show more.stop = _
        rw [hstop, byteSize_append, byteSize_append]
        simp only [token, AttributeScan.token, start]
        omega
      · exact .cons hne rfl rfl rfl hranged

/-- The closing tag that raw content of an element ends at, in lower case and without its end. -/
def rawNeedle (name : String) : List Char := '<' :: '/' :: name.toList.map lowerChar

/-- Raw content in which the element is not closed: whatever reads like the start of its closing tag
goes on as another name. -/
def Unclosed (name : String) (raw : List Char) : Prop :=
  ∀ before tag c after, raw = before ++ (tag ++ c :: after) → tag.map lowerChar = rawNeedle name →
    ¬ (c = '>' ∨ isBlank c = true)

/-- A raw body and what is behind it are the characters given. -/
theorem rawSpan_eq (needle cs : List Char) : (rawSpan needle cs).1 ++ (rawSpan needle cs).2 = cs := by
  induction cs with
  | nil => rfl
  | cons c rest ih =>
      simp only [rawSpan]
      split
      · rfl
      · exact congrArg (c :: ·) ih

/-- Raw content stops at the closing tag, or else at the end of the text. -/
theorem closesRaw_rawSpan (needle cs : List Char) :
    (rawSpan needle cs).2 = [] ∨ closesRaw needle (rawSpan needle cs).2 = true := by
  induction cs with
  | nil => exact .inl rfl
  | cons c rest ih =>
      simp only [rawSpan]
      split
      · next h => exact .inr h
      · exact ih

/-- No closing tag starts inside raw content. -/
private theorem not_closesRaw_rawSpan (needle cs : List Char) {before after : List Char}
    (h : (rawSpan needle cs).1 = before ++ after) (hne : after ≠ []) :
    closesRaw needle (after ++ (rawSpan needle cs).2) = false := by
  induction cs generalizing before with
  | nil =>
      have : before ++ after = [] := h.symm
      exact absurd (List.append_eq_nil_iff.mp this).2 hne
  | cons c rest ih =>
      simp only [rawSpan] at h ⊢
      split at h
      · exact absurd (List.append_eq_nil_iff.mp h.symm).2 hne
      · next hc =>
          rw [if_neg hc]
          cases before with
          | nil =>
              rw [List.nil_append] at h
              subst h
              simpa [rawSpan_eq] using hc
          | cons d more =>
              rw [List.cons_append, List.cons.injEq] at h
              exact ih h.2

/-- A raw body does not contain its closing tag. -/
theorem unclosed_rawSpan (name : String) (cs : List Char) :
    Unclosed name (rawSpan (rawNeedle name) cs).1 := by
  intro before tag c after heq htag hc
  have hno := not_closesRaw_rawSpan (rawNeedle name) cs heq (by simp)
  have hlen : (rawNeedle name).length = tag.length := by rw [← htag, List.length_map]
  rw [closesRaw, hlen, List.append_assoc, List.take_left, List.drop_left, htag] at hno
  simp at hno
  rcases hc with rfl | hc
  · exact hno.1 rfl
  · rw [hno.2] at hc
    exact absurd hc (by decide)

/-- The characters of a token that starts at an offset, and what it is. -/
inductive Tile (offset : Nat) : List Char → Lexeme → Prop
  | text {cs : List Char} (hne : cs ≠ []) : Tile offset cs (.text (String.ofList cs))
  | comment (content : List Char) :
      Tile offset (['<', '!', '-', '-'] ++ (content ++ ['-', '-', '>']))
        (.comment (String.ofList content))
  | opening {name inside : List Char} {attributes : List AttributeToken} (selfClosing : Bool)
      (hne : name ≠ []) (hname : ∀ c ∈ name, isTagPart c = true)
      (hranged : Ranged (offset + 1 + byteSize name) inside attributes) :
      Tile offset ('<' :: (name ++ inside))
        (.opening (String.ofList name) attributes selfClosing)
  | closing {name : List Char} (inside : List Char) (hname : ∀ c ∈ name, isTagPart c = true) :
      Tile offset ('<' :: '/' :: (name ++ inside)) (.closing (String.ofList name))

/-- Whether raw content follows the token. -/
def Lexeme.opensRaw : Lexeme → Bool
  | .opening name _ selfClosing => !selfClosing && isRawText name
  | _ => false

/-- A token made of the given characters. -/
def tileToken (offset : Nat) (cs : List Char) (lexeme : Lexeme) : Token :=
  ⟨lexeme, offset, offset + byteSize cs⟩

/-- A text that starts at an offset, cut into tokens. -/
inductive Tiled : Nat → List Char → List Token → Prop
  | nil (offset : Nat) : Tiled offset [] []
  | cons {offset : Nat} {cs rest : List Char} {lexeme : Lexeme} {tokens : List Token}
      (tile : Tile offset cs lexeme) (hraw : lexeme.opensRaw = false)
      (tail : Tiled (offset + byteSize cs) rest tokens) :
      Tiled offset (cs ++ rest) (tileToken offset cs lexeme :: tokens)
  /-- A comment without an end is the last token. -/
  | unterminated {offset : Nat} {content : List Char} (hopen : ¬ ['-', '-', '>'] <:+: content) :
      Tiled offset (['<', '!', '-', '-'] ++ content)
        [tileToken offset (['<', '!', '-', '-'] ++ content) (.comment (String.ofList content))]
  /-- Raw content up to the end of the text. -/
  | rawEnd {offset : Nat} {cs raw : List Char} {name : String} {attributes : List AttributeToken}
      (tile : Tile offset cs (.opening name attributes false)) (hname : isRawText name = true)
      (hraw : Unclosed name raw) :
      Tiled offset (cs ++ raw)
        [tileToken offset cs (.opening name attributes false),
         tileToken (offset + byteSize cs) raw (.raw (String.ofList raw))]
  /-- Raw content up to the closing tag of its element. -/
  | raw {offset : Nat} {cs raw close rest : List Char} {name last : String}
      {attributes : List AttributeToken} {tokens : List Token}
      (tile : Tile offset cs (.opening name attributes false)) (hname : isRawText name = true)
      (hraw : Unclosed name raw)
      (hclose : Tile (offset + byteSize cs + byteSize raw) close (.closing last))
      (hlast : lower last = lower name)
      (tail : Tiled (offset + byteSize cs + byteSize raw + byteSize close) rest tokens) :
      Tiled offset (cs ++ (raw ++ (close ++ rest)))
        (tileToken offset cs (.opening name attributes false) ::
          tileToken (offset + byteSize cs) raw (.raw (String.ofList raw)) ::
          tileToken (offset + byteSize cs + byteSize raw) close (.closing last) :: tokens)

/-- Where dropping stops, the character is another one. -/
theorem head_of_dropWhile {p : Char → Bool} {cs rest : List Char} {c : Char}
    (h : cs.dropWhile p = c :: rest) : p c = false := by
  have hhead := List.head?_dropWhile_not p cs
  rw [h] at hhead
  simpa using hhead

/-- A closing tag runs up to the next closing angle bracket, or else to the end of the text. -/
theorem scanClosing_tile (offset : Nat) (cs : List Char) :
    ∃ inside, '<' :: '/' :: cs = '<' :: '/' :: (cs.takeWhile isTagPart ++ inside) ++
        (scanClosing offset ('<' :: '/' :: cs)).rest ∧
      (scanClosing offset ('<' :: '/' :: cs)).tokens =
        [tileToken offset ('<' :: '/' :: (cs.takeWhile isTagPart ++ inside))
          (.closing (String.ofList (cs.takeWhile isTagPart)))] ∧
      (scanClosing offset ('<' :: '/' :: cs)).stop =
        offset + byteSize ('<' :: '/' :: (cs.takeWhile isTagPart ++ inside)) := by
  have hname : cs.takeWhile isTagPart ++ cs.dropWhile isTagPart = cs :=
    List.takeWhile_append_dropWhile
  have hinside : (cs.dropWhile isTagPart).takeWhile (· != '>') ++
      (cs.dropWhile isTagPart).dropWhile (· != '>') = cs.dropWhile isTagPart :=
    List.takeWhile_append_dropWhile
  have hsize : ∀ more, byteSize ('<' :: '/' :: more) = 2 + byteSize more := by
    intro more
    rw [byteSize_cons, byteSize_cons, ← Nat.add_assoc]
    rfl
  unfold scanClosing
  simp only [List.drop_succ_cons, List.drop_zero]
  split
  · next c rest h =>
      have hc : c = '>' := by simpa using head_of_dropWhile h
      subst hc
      have hone : byteSize ['>'] = 1 := rfl
      refine ⟨(cs.dropWhile isTagPart).takeWhile (· != '>') ++ ['>'],
        congrArg (fun more => '<' :: '/' :: more) ?_, ?_, ?_⟩
      · show cs = (cs.takeWhile isTagPart ++ (_ ++ ['>'])) ++ rest
        rw [List.append_assoc, List.append_assoc, List.singleton_append, ← h, hinside, hname]
      · simp only [tileToken, hsize, byteSize_append, hone, ← Nat.add_assoc]
      · simp only [hsize, byteSize_append, hone, ← Nat.add_assoc]
  · next h =>
      rw [h, List.append_nil] at hinside
      refine ⟨(cs.dropWhile isTagPart).takeWhile (· != '>'),
        congrArg (fun more => '<' :: '/' :: more) ?_, ?_, ?_⟩
      · show cs = (cs.takeWhile isTagPart ++ _) ++ []
        rw [List.append_nil, hinside, hname]
      · simp only [tileToken, hsize, byteSize_append, ← Nat.add_assoc]
      · simp only [hsize, byteSize_append, ← Nat.add_assoc]

/-- The letters of a name of an element with raw content. -/
theorem isLetter_of_isRawText {name : String} (h : isRawText name = true) :
    ∀ c ∈ name.toList.map lowerChar, isLetter c = true := by
  have hall : ∀ n ∈ rawNames, n.toList.all isLetter = true := by decide
  intro c hc
  have hmem : lower name ∈ rawNames := by simpa [isRawText] using h
  exact List.all_eq_true.mp (hall _ hmem) c (by simpa [lower] using hc)

/-- The name in the closing tag that ends raw content is that of the element, letter case apart. -/
theorem lower_of_closesRaw {name : String} (hname : isRawText name = true) {cs : List Char}
    (h : closesRaw (rawNeedle name) cs = true) :
    ∃ rest, cs = '<' :: '/' :: rest ∧
      lower (String.ofList (rest.takeWhile isTagPart)) = lower name := by
  rw [closesRaw, Bool.and_eq_true, beq_iff_eq] at h
  obtain ⟨htag, hnext⟩ := h
  -- the tag is `</` and the letters of the name in either case
  match cs, htag, hnext with
  | [], htag, _ => simp [rawNeedle] at htag
  | [c], htag, _ => simp [rawNeedle] at htag
  | c :: d :: rest, htag, hnext =>
      simp only [rawNeedle, List.length_cons, List.take_succ_cons, List.map_cons,
        List.cons.injEq, List.length_map, List.drop_succ_cons] at htag hnext
      have hc := eq_of_lowerChar_eq htag.1 (by decide)
      have hd := eq_of_lowerChar_eq htag.2.1 (by decide)
      refine ⟨rest, by rw [hc, hd], ?_⟩
      have hpart : ∀ x ∈ rest.take name.toList.length, isTagPart x = true := by
        intro x hx
        apply isTagPart_of_isLetter
        rw [← isLetter_lowerChar]
        exact isLetter_of_isRawText hname _ (htag.2.2 ▸ List.mem_map_of_mem hx)
      have hstop : (rest.drop name.toList.length).takeWhile isTagPart = [] := by
        cases hr : rest.drop name.toList.length with
        | nil => rfl
        | cons x more =>
            rw [hr] at hnext
            simp only [Bool.or_eq_true, beq_iff_eq] at hnext
            have hx : isTagPart x = false := by
              rcases hnext with rfl | hb
              · decide
              · exact isTagPart_of_isBlank hb
            simp [hx]
      have htake : rest.takeWhile isTagPart = rest.take name.toList.length := by
        conv_lhs => rw [← List.take_append_drop name.toList.length rest]
        rw [List.takeWhile_append_of_pos hpart, hstop, List.append_nil]
      rw [htake]
      simp [lower, htag.2.2]

/-- A tile is not empty. -/
theorem Tile.ne_nil {offset : Nat} {cs : List Char} {lexeme : Lexeme} (h : Tile offset cs lexeme) :
    cs ≠ [] := by
  cases h with
  | text hne => exact hne
  | comment => simp
  | opening => simp
  | closing => simp

/-- Nothing is cut out of nothing. -/
theorem Tiled.eq_nil {offset : Nat} {tokens : List Token} (h : Tiled offset [] tokens) :
    tokens = [] := by
  generalize hcs : ([] : List Char) = cs at h
  cases h with
  | nil => rfl
  | cons tile => exact absurd (List.append_eq_nil_iff.mp hcs.symm).1 tile.ne_nil
  | unterminated => simp at hcs
  | rawEnd tile => exact absurd (List.append_eq_nil_iff.mp hcs.symm).1 tile.ne_nil
  | raw tile => exact absurd (List.append_eq_nil_iff.mp hcs.symm).1 tile.ne_nil

/-- A needle that cannot be found is not there. -/
theorem not_infix_of_breakOn {needle text : List Char} (hne : needle ≠ [])
    (h : breakOn needle text = none) : ¬ needle <:+: text := by
  induction text with
  | nil => simpa using hne
  | cons c rest ih =>
      simp only [breakOn] at h
      split at h
      · simp at h
      · next hp =>
          rw [Option.map_eq_none_iff] at h
          intro hi
          rcases List.infix_cons_iff.mp hi with hpre | hin
          · exact hp (List.isPrefixOf_iff_prefix.mpr hpre)
          · exact ih h hin

/-- What a scanner has made of the front of a text goes with what is made of its rest. -/
def Scan.Continues (offset : Nat) (cs : List Char) (s : Scan) : Prop :=
  ∀ tokens, Tiled s.stop s.rest tokens → Tiled offset cs (s.tokens ++ tokens)

/-- After a text the scan continues. -/
theorem scanText_continues (offset : Nat) (taken rest : List Char) (hne : taken ≠ []) :
    (scanText offset taken rest).Continues offset (taken ++ rest) :=
  fun _ tail => .cons (.text hne) rfl tail

/-- After a declaration the scan continues. -/
theorem scanDeclaration_continues (offset : Nat) (c : Char) (cs : List Char) :
    (scanDeclaration offset (c :: cs)).Continues offset (c :: cs) := by
  unfold scanDeclaration
  split
  · next before rest h =>
      have hcut : c :: cs = before ++ ['>'] ++ rest := breakOn_eq h
      rw [hcut]
      exact scanText_continues offset _ rest (by simp)
  · have h := scanText_continues offset (c :: cs) [] (by simp)
    rwa [List.append_nil] at h

/-- After a comment the scan continues. -/
theorem scanComment_continues (offset : Nat) (body : List Char) :
    (scanComment offset (['<', '!', '-', '-'] ++ body)).Continues offset
      (['<', '!', '-', '-'] ++ body) := by
  have hfour : byteSize ['<', '!', '-', '-'] = 4 := rfl
  have hthree : byteSize ['-', '-', '>'] = 3 := rfl
  intro tokens tail
  cases hb : breakOn ['-', '-', '>'] body with
  | some cut =>
      obtain ⟨content, rest⟩ := cut
      have hscan : scanComment offset (['<', '!', '-', '-'] ++ body) =
          ⟨[tileToken offset (['<', '!', '-', '-'] ++ (content ++ ['-', '-', '>']))
            (.comment (String.ofList content))], [], rest,
            offset + byteSize (['<', '!', '-', '-'] ++ (content ++ ['-', '-', '>']))⟩ := by
        have hd : (['<', '!', '-', '-'] ++ body).drop 4 = body := rfl
        have hn : "-->".toList = ['-', '-', '>'] := rfl
        have hsize : byteSize (['<', '!', '-', '-'] ++ (content ++ ['-', '-', '>'])) =
            4 + byteSize content + 3 := by
          rw [byteSize_append, byteSize_append, hfour, hthree, Nat.add_assoc]
        simp only [scanComment, hd, hn, hb, tileToken, hsize, ← Nat.add_assoc]
      rw [hscan] at tail ⊢
      have hbody : body = content ++ ['-', '-', '>'] ++ rest := breakOn_eq hb
      rw [hbody, List.append_assoc content, ← List.append_assoc, ← List.append_assoc,
        List.append_assoc _ content]
      exact .cons (.comment content) rfl tail
  | none =>
      have hscan : scanComment offset (['<', '!', '-', '-'] ++ body) =
          ⟨[tileToken offset (['<', '!', '-', '-'] ++ body) (.comment (String.ofList body))],
            [⟨.unterminatedComment, offset, offset + byteSize (['<', '!', '-', '-'] ++ body)⟩], [],
            offset + byteSize (['<', '!', '-', '-'] ++ body)⟩ := by
        have hd : (['<', '!', '-', '-'] ++ body).drop 4 = body := rfl
        have hn : "-->".toList = ['-', '-', '>'] := rfl
        simp only [scanComment, hd, hn, hb, tileToken, byteSize_append, hfour, ← Nat.add_assoc]
      rw [hscan] at tail ⊢
      rw [tail.eq_nil, List.append_nil]
      exact .unterminated (not_infix_of_breakOn (by simp) hb)

/-- After a closing tag the scan continues. -/
theorem scanClosing_continues (offset : Nat) (cs : List Char) :
    (scanClosing offset ('<' :: '/' :: cs)).Continues offset ('<' :: '/' :: cs) := by
  intro tokens tail
  obtain ⟨inside, hcs, htokens, hstop⟩ := scanClosing_tile offset cs
  rw [hstop] at tail
  rw [htokens, hcs]
  have hname : ∀ c ∈ cs.takeWhile isTagPart, isTagPart c = true := fun c hc =>
    List.all_eq_true.mp List.all_takeWhile c hc
  exact .cons (.closing inside hname) rfl tail

/-- Raw content goes with the opening tag in front of it and the closing tag behind it. -/
theorem scanRaw_continues {offset : Nat} {cs : List Char} {name : String}
    {attributes : List AttributeToken} (tile : Tile offset cs (.opening name attributes false))
    (hname : isRawText name = true) (after : List Char) {tokens : List Token}
    (tail : Tiled (scanRaw name (offset + byteSize cs) after).stop
      (scanRaw name (offset + byteSize cs) after).rest tokens) :
    Tiled offset (cs ++ after) (tileToken offset cs (.opening name attributes false) ::
      ((scanRaw name (offset + byteSize cs) after).tokens ++ tokens)) := by
  have hcut := rawSpan_eq (rawNeedle name) after
  have hraw := unclosed_rawSpan name after
  have hclose := closesRaw_rawSpan (rawNeedle name) after
  have hneedle : "</".toList ++ name.toList.map lowerChar = rawNeedle name := rfl
  unfold scanRaw at tail ⊢
  rw [hneedle] at tail ⊢
  generalize rawSpan (rawNeedle name) after = cut at *
  obtain ⟨raw, rest⟩ := cut
  simp only at hcut hraw hclose tail ⊢
  subst hcut
  cases rest with
  | nil =>
      rw [tail.eq_nil, List.append_nil, List.append_nil]
      exact .rawEnd tile hname hraw
  | cons c more =>
      obtain ⟨inner, hinner, hlower⟩ := lower_of_closesRaw hname (hclose.resolve_left (by simp))
      rw [hinner] at tail ⊢
      obtain ⟨inside, hcs, htokens, hstop⟩ :=
        scanClosing_tile (offset + byteSize cs + byteSize raw) inner
      have hpart : ∀ x ∈ inner.takeWhile isTagPart, isTagPart x = true := fun x hx =>
        List.all_eq_true.mp List.all_takeWhile x hx
      simp only [htokens] at tail ⊢
      rw [hstop] at tail
      rw [hcs]
      exact .raw tile hname hraw (.closing inside hpart) hlower tail

/-- An opening tag with the raw content after it, if there is any. -/
theorem scanOpening_continues (offset : Nat) {c : Char} (hc : isTagStart c = true)
    (cs : List Char) :
    (scanOpening offset ('<' :: c :: cs)).Continues offset ('<' :: c :: cs) := by
  have hname : ∀ x ∈ (c :: cs).takeWhile isTagPart, isTagPart x = true := fun x hx =>
    List.all_eq_true.mp List.all_takeWhile x hx
  have hne : (c :: cs).takeWhile isTagPart ≠ [] := by
    simp [isTagPart_of_isTagStart hc]
  have hcut : (c :: cs).takeWhile isTagPart ++ (c :: cs).dropWhile isTagPart = c :: cs :=
    List.takeWhile_append_dropWhile
  intro tokens tail
  unfold scanOpening at tail ⊢
  simp only [List.drop_succ_cons, List.drop_zero] at tail ⊢
  generalize (c :: cs).takeWhile isTagPart = name at *
  generalize (c :: cs).dropWhile isTagPart = after at *
  obtain ⟨inside, hinside, hstop, hranged⟩ := scanAttributes_ranged (offset + 1 + byteSize name) after
  generalize scanAttributes (offset + 1 + byteSize name) after = tag at *
  have htile := Tile.opening tag.selfClosing hne hname hranged
  have hsize : tag.stop = offset + byteSize ('<' :: (name ++ inside)) := by
    rw [hstop, byteSize_cons, byteSize_append, ← Nat.add_assoc, ← Nat.add_assoc]
    rfl
  rw [← hcut, hinside, ← List.append_assoc, ← List.cons_append]
  split at tail
  · next hraw =>
      rw [if_pos hraw]
      rw [Bool.and_eq_true, Bool.not_eq_true'] at hraw
      rw [hraw.1] at htile ⊢
      simp only [hsize] at tail ⊢
      exact scanRaw_continues htile hraw.2 tag.rest tail
  · next hraw =>
      rw [if_neg hraw]
      rw [hsize] at tail
      simp only [hsize]
      exact .cons htile (by simpa [Lexeme.opensRaw] using hraw) tail

/-- How markup starts. -/
theorem startsMarkup_cases {cs : List Char} (h : startsMarkup cs = true) :
    (∃ c rest, cs = '<' :: '/' :: c :: rest ∧ isTagStart c = true) ∨
      ∃ c rest, cs = '<' :: c :: rest ∧ c ≠ '/' ∧ (c = '!' ∨ isTagStart c = true) := by
  unfold startsMarkup at h
  split at h
  · next c rest => exact .inl ⟨c, rest, rfl, h⟩
  · next c rest _ =>
      rw [Bool.or_eq_true, beq_iff_eq] at h
      refine .inr ⟨c, rest, rfl, ?_, h⟩
      rintro rfl
      revert h
      decide
  · simp at h

/-- What stands next in a text is cut off as a token or as an element with raw content. -/
theorem scanNext_continues (offset : Nat) (c : Char) (cs : List Char) :
    (scanNext offset c cs).Continues offset (c :: cs) := by
  unfold scanNext
  dsimp only
  split
  · next hcomment =>
      obtain ⟨body, hbody⟩ := List.isPrefixOf_iff_prefix.mp hcomment
      rw [← hbody]
      exact scanComment_continues offset body
  · split
    · exact scanDeclaration_continues offset c cs
    · next hdeclaration =>
        split
        · next hmarkup =>
            rcases startsMarkup_cases hmarkup with ⟨d, rest, heq, hd⟩ | ⟨d, rest, heq, hne, hd⟩
            · obtain ⟨rfl, rfl⟩ := List.cons.inj heq
              exact scanClosing_continues offset (d :: rest)
            · obtain ⟨rfl, rfl⟩ := List.cons.inj heq
              have hslash : ((d :: rest).head? == some '/') = false := by simpa using hne
              rw [hslash]
              rcases hd with rfl | hd
              · exact absurd rfl hdeclaration
              · exact scanOpening_continues offset hd rest
        · have hcut := textSpan_eq (braceJump (c :: cs)) cs
          have h := scanText_continues offset (c :: (textSpan (braceJump (c :: cs)) cs).1)
            (textSpan (braceJump (c :: cs)) cs).2 (by simp)
          rwa [List.cons_append, hcut] at h

/-- **Scanning cuts.**  The tokens that scanning finds are the text, cut into pieces. -/
theorem scanFrom_tiled (offset : Nat) (cs : List Char) : Tiled offset cs (scanFrom offset cs).1 := by
  fun_induction scanFrom offset cs with
  | case1 offset => exact .nil offset
  | case2 offset c cs s tokens findings h ih =>
      rw [h] at ih
      exact scanNext_continues offset c cs tokens ih

end Stencil.Markup
