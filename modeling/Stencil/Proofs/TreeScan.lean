import Stencil.Proofs.Attributes
import Stencil.Proofs.Tiling

/-!
# Reading what was written

Tags, raw content, texts and comments of legible trees are read again up to their own ends.  A text
that holds declarations or stray angle brackets is scanned in several pieces, which only joining makes
one (`ReadsText.scanJoined_eq`).  `scanJoined_trees` puts everything together.
-/

namespace Stencil.Markup

open Stencil.Text

/-- A text that delimits has no part of a tag's name in front. -/
theorem Delimits.head_isTagPart {rest : List Char} (h : Delimits rest) :
    rest.takeWhile isTagPart = [] ∧ rest.dropWhile isTagPart = rest := by
  have hspace : isTagPart ' ' = false := by decide
  have hgt : isTagPart '>' = false := by decide
  have hslash : isTagPart '/' = false := by decide
  cases h <;> simp [hspace, hgt, hslash]

theorem ScannedName.forall_isTagPart {name : String} (h : ScannedName name) :
    ∀ c ∈ name.toList, isTagPart c = true := by
  obtain ⟨c, rest, hname, hc, hrest⟩ := h
  rw [hname]
  exact List.forall_mem_cons.mpr ⟨isTagPart_of_isTagStart hc, hrest⟩

/-- The token of an opening tag that is written at an offset. -/
def Tag.token (offset : Nat) (t : Tag) : Token :=
  tileToken offset t.opening
    (.opening t.name (attributeTokens (offset + 1 + byteSize t.name.toList) t.attributes)
      t.selfClosing)

/-- An opening tag is read as it was written, with the raw content behind it. -/
theorem Tag.Scanned.scanOpening_eq {affix : Bool} {t : Tag} (h : t.Scanned affix) (offset : Nat)
    {rest : List Char} (hlegible : AttributesLegible (t.ending ++ rest) t.attributes) :
    scanOpening offset (t.opening ++ rest) =
      if t.holdsRaw then
        let content := scanRaw t.name (offset + byteSize t.opening) rest
        { content with tokens := t.token offset :: content.tokens }
      else ⟨[t.token offset], [], rest, offset + byteSize t.opening⟩ := by
  have hdelimits := (Tag.inside_delimits h.attributes rest).head_isTagPart
  have htake : (t.name.toList ++ (t.inside ++ rest)).takeWhile isTagPart = t.name.toList := by
    rw [List.takeWhile_append_of_pos h.name.forall_isTagPart, hdelimits.1, List.append_nil]
  have hdrop : (t.name.toList ++ (t.inside ++ rest)).dropWhile isTagPart = t.inside ++ rest := by
    rw [List.dropWhile_append_of_pos h.name.forall_isTagPart, hdelimits.2]
  have hstop : offset + 1 + byteSize t.name.toList + byteSize t.inside =
      offset + byteSize t.opening := by
    have hone : Char.utf8Size '<' = 1 := rfl
    simp only [Tag.opening, byteSize_cons, byteSize_append, hone]
    omega
  have hopening : t.opening ++ rest = '<' :: (t.name.toList ++ (t.inside ++ rest)) := by
    simp [Tag.opening]
  unfold scanOpening
  rw [hopening]
  simp only [List.drop_succ_cons, List.drop_zero, htake, hdrop,
    scanAttributes_inside t _ rest h.attributes hlegible, String.ofList_toList, hstop]
  rfl

/-- A closing tag that is printed is scanned as one token. -/
theorem ScannedName.scanClosing_eq {t : Tag} (h : ScannedName t.name) (offset : Nat)
    (rest : List Char) :
    scanClosing offset (t.closing ++ rest) =
      ⟨[tileToken offset t.closing (.closing t.name)], [], rest, offset + byteSize t.closing⟩ := by
  have hdelimits := (Delimits.ending rest).head_isTagPart
  have htake : (t.name.toList ++ '>' :: rest).takeWhile isTagPart = t.name.toList := by
    rw [List.takeWhile_append_of_pos h.forall_isTagPart, hdelimits.1, List.append_nil]
  have hdrop : (t.name.toList ++ '>' :: rest).dropWhile isTagPart = '>' :: rest := by
    rw [List.dropWhile_append_of_pos h.forall_isTagPart, hdelimits.2]
  have hsize : byteSize t.closing = 2 + byteSize t.name.toList + 1 := by
    have hone : Char.utf8Size '<' = 1 := rfl
    have htwo : Char.utf8Size '/' = 1 := rfl
    have hthree : Char.utf8Size '>' = 1 := rfl
    simp only [Tag.closing, byteSize_cons, byteSize_append, byteSize_nil, hone, htwo, hthree]
    omega
  have hclosing : t.closing ++ rest = '<' :: '/' :: (t.name.toList ++ '>' :: rest) := by
    simp [Tag.closing]
  unfold scanClosing
  rw [hclosing]
  simp [htake, hdrop, tileToken, hsize, Nat.add_assoc]

/-- Inside raw content the closing tag does not start, also if it stands right behind. -/
theorem Unclosed.closesRaw_eq {name : String} {raw : List Char} (h : Unclosed name raw)
    (hname : isRawText name = true) (hne : raw ≠ []) (more : List Char) :
    closesRaw (rawNeedle name) (raw ++ '<' :: more) = false := by
  rw [Bool.eq_false_iff]
  intro hcloses
  rw [closesRaw, Bool.and_eq_true, beq_iff_eq] at hcloses
  obtain ⟨htag, hnext⟩ := hcloses
  rcases Nat.lt_trichotomy (rawNeedle name).length raw.length with hlt | heq | hgt
  · -- the tag and the character behind it are inside the raw content
    obtain ⟨c, after, hdrop⟩ : ∃ c after, raw.drop (rawNeedle name).length = c :: after := by
      cases hd : raw.drop (rawNeedle name).length with
      | nil => exact absurd (List.drop_eq_nil_iff.mp hd) (by omega)
      | cons c after => exact ⟨c, after, rfl⟩
    have htake : (raw ++ '<' :: more).take (rawNeedle name).length =
        raw.take (rawNeedle name).length := List.take_append_of_le_length (by omega)
    rw [htake] at htag
    rw [List.drop_append_of_le_length (by omega), hdrop] at hnext
    refine h [] _ c after ?_ htag (by simpa using hnext)
    rw [List.nil_append, ← hdrop, List.take_append_drop]
  · rw [heq, List.drop_left] at hnext
    simp [show isBlank '<' = false from rfl] at hnext
  · -- the tag would go on with an angle bracket
    have hbracket : '<' ∈ (rawNeedle name).tail := by
      obtain ⟨c, rest, rfl⟩ := List.exists_cons_of_ne_nil hne
      obtain ⟨k, hk⟩ : ∃ k, (rawNeedle name).length = rest.length + (k + 1) + 1 :=
        ⟨(rawNeedle name).length - rest.length - 2, by simp only [List.length_cons] at hgt; omega⟩
      rw [← htag, hk, List.cons_append, List.take_succ_cons, List.map_cons, List.tail_cons,
        List.take_length_add_append, List.take_succ_cons]
      simp [show lowerChar '<' = '<' from rfl]
    have hletters := isLetter_of_isRawText hname '<'
    simp only [rawNeedle, List.tail_cons, List.mem_cons] at hbracket
    rcases hbracket with hslash | hletter
    · exact absurd hslash (by decide)
    · exact absurd (hletters hletter) (by decide)

/-- A raw body stays unclosed without its first character. -/
theorem Unclosed.tail {name : String} {c : Char} {raw : List Char} (h : Unclosed name (c :: raw)) :
    Unclosed name raw := by
  intro before tag d after heq
  exact h (c :: before) tag d after (by rw [heq]; rfl)

/-- The closing tag of an element closes its raw body. -/
theorem Tag.closesRaw_closing (t : Tag) (rest : List Char) :
    closesRaw (rawNeedle t.name) (t.closing ++ rest) = true := by
  have hlen : (rawNeedle t.name).length = ('<' :: '/' :: t.name.toList).length := by
    simp [rawNeedle]
  have hclosing : t.closing ++ rest = '<' :: '/' :: t.name.toList ++ '>' :: rest := by
    simp [Tag.closing]
  rw [closesRaw, hlen, hclosing, List.take_left, List.drop_left]
  simp [rawNeedle, show lowerChar '<' = '<' from rfl, show lowerChar '/' = '/' from rfl]

/-- Raw content is read up to the closing tag behind it. -/
theorem Unclosed.rawSpan_eq {t : Tag} {raw : List Char} (h : Unclosed t.name raw)
    (hname : isRawText t.name = true) (rest : List Char) :
    rawSpan (rawNeedle t.name) (raw ++ (t.closing ++ rest)) = (raw, t.closing ++ rest) := by
  induction raw with
  | nil =>
      have hcloses := t.closesRaw_closing rest
      have hcons : t.closing ++ rest = '<' :: '/' :: (t.name.toList ++ ['>'] ++ rest) := rfl
      rw [hcons] at hcloses
      simp only [List.nil_append, hcons, rawSpan, hcloses, if_true]
  | cons c tail ih =>
      have hcloses := h.closesRaw_eq hname (by simp) ('/' :: (t.name.toList ++ ['>']) ++ rest)
      have hcons : c :: tail ++ '<' :: ('/' :: (t.name.toList ++ ['>']) ++ rest) =
          c :: (tail ++ (t.closing ++ rest)) := rfl
      rw [hcons] at hcloses
      simp only [List.cons_append, rawSpan, hcloses, Bool.false_eq_true, if_false, ih h.tail]

/-- A raw body with its closing tag is scanned as the two tokens. -/
theorem ScannedName.scanRaw_eq {t : Tag} (h : ScannedName t.name) {raw : List Char}
    (hraw : Unclosed t.name raw) (hname : isRawText t.name = true) (offset : Nat) (rest : List Char) :
    scanRaw t.name offset (raw ++ (t.closing ++ rest)) =
      ⟨[tileToken offset raw (.raw (String.ofList raw)),
        tileToken (offset + byteSize raw) t.closing (.closing t.name)], [], rest,
        offset + byteSize raw + byteSize t.closing⟩ := by
  have hneedle : "</".toList ++ t.name.toList.map lowerChar = rawNeedle t.name := rfl
  unfold scanRaw
  rw [hneedle, hraw.rawSpan_eq hname]
  simp only
  split
  · next heq => simp [Tag.closing] at heq
  · rw [h.scanClosing_eq]
    rfl

/-- What is found at its first place is found there. -/
theorem breakOn_comment {content : List Char} (h : ¬ ['-', '-', '>'] <:+: content)
    (rest : List Char) :
    breakOn ['-', '-', '>'] (content ++ (['-', '-', '>'] ++ rest)) = some (content, rest) := by
  induction content with
  | nil => rfl
  | cons c tail ih =>
      have htail : ¬ ['-', '-', '>'] <:+: tail := fun hin => h (List.infix_cons_iff.mpr (.inr hin))
      have hpre : ¬ ['-', '-', '>'] <+: c :: tail := fun hpre => h hpre.isInfix
      have hno : ['-', '-', '>'].isPrefixOf (c :: (tail ++ (['-', '-', '>'] ++ rest))) = false := by
        rw [Bool.eq_false_iff]
        intro hprefix
        match tail with
        | [] => simp at hprefix
        | [d] => simp at hprefix
        | d :: e :: more =>
            apply hpre
            simpa using hprefix
      rw [List.cons_append, breakOn, if_neg (by rw [hno]; simp), ih htail, Option.map_some]

/-- A comment is scanned as one token. -/
theorem scanComment_eq {content : List Char} (h : ¬ ['-', '-', '>'] <:+: content) (offset : Nat)
    (rest : List Char) :
    scanComment offset (['<', '!', '-', '-'] ++ (content ++ ['-', '-', '>']) ++ rest) =
      ⟨[tileToken offset (['<', '!', '-', '-'] ++ (content ++ ['-', '-', '>']))
        (.comment (String.ofList content))], [], rest,
        offset + byteSize (['<', '!', '-', '-'] ++ (content ++ ['-', '-', '>']))⟩ := by
  have hbody : (['<', '!', '-', '-'] ++ (content ++ ['-', '-', '>']) ++ rest).drop 4 =
      content ++ (['-', '-', '>'] ++ rest) := by simp
  have hneedle : "-->".toList = ['-', '-', '>'] := rfl
  have hsize : byteSize (['<', '!', '-', '-'] ++ (content ++ ['-', '-', '>'])) =
      4 + byteSize content + 3 := by
    have hfour : byteSize ['<', '!', '-', '-'] = 4 := rfl
    have hthree : byteSize ['-', '-', '>'] = 3 := rfl
    rw [byteSize_append, byteSize_append, hfour, hthree, Nat.add_assoc]
  simp only [scanComment, hbody, hneedle, breakOn_comment h, tileToken, hsize, ← Nat.add_assoc]

/-- The token of raw content, if there is any. -/
def Tag.rawTokens (offset : Nat) (t : Tag) : List Token :=
  match t.raw with
  | some body => [tileToken offset body.toList (.raw body)]
  | none => []

mutual

/-- The tokens of a tree that is written at an offset. -/
def Tree.tokens (offset : Nat) : Tree → List Token
  | .text text => [tileToken offset text.toList (.text text)]
  | .comment content =>
      [tileToken offset (['<', '!', '-', '-'] ++ (content.toList ++ ['-', '-', '>']))
        (.comment content)]
  | .element tag children =>
      let inside := offset + byteSize tag.opening
      let below := inside + byteSize (tag.raw.getD "").toList
      tag.token offset ::
        if tag.selfClosing || tag.empty then []
        else tag.rawTokens inside ++ (treesTokens below children ++
          [tileToken (below + byteSize (treesChars children)) tag.closing (.closing tag.name)])

/-- The tokens of trees that are written one after another from an offset on. -/
def treesTokens (offset : Nat) : List Tree → List Token
  | [] => []
  | t :: rest => t.tokens offset ++ treesTokens (offset + byteSize t.chars) rest

end

/-- A tag does not start with an exclamation mark or a slash. -/
theorem isTagStart_ne {c : Char} (h : isTagStart c = true) : c ≠ '!' ∧ c ≠ '/' := by
  constructor <;> (rintro rfl; revert h; decide)

/-- One step of the scanner, where nothing is found amiss. -/
theorem scanFrom_cons {offset stop : Nat} {c : Char} {cs rest : List Char} {tokens : List Token}
    (h : scanNext offset c cs = ⟨tokens, [], rest, stop⟩) :
    scanFrom offset (c :: cs) = (tokens ++ (scanFrom stop rest).1, (scanFrom stop rest).2) := by
  rw [scanFrom, h]
  rfl

theorem scanFrom_singleton {offset stop : Nat} {c : Char} {cs rest : List Char} {token : Token}
    (h : scanNext offset c cs = ⟨[token], [], rest, stop⟩) :
    scanFrom offset (c :: cs) = (token :: (scanFrom stop rest).1, (scanFrom stop rest).2) :=
  scanFrom_cons h

/-- The scan of a text goes on behind a comment. -/
theorem scanFrom_comment {content : List Char} (h : ¬ ['-', '-', '>'] <:+: content) (offset : Nat)
    (rest : List Char) :
    scanFrom offset (['<', '!', '-', '-'] ++ (content ++ ['-', '-', '>']) ++ rest) =
      (tileToken offset (['<', '!', '-', '-'] ++ (content ++ ['-', '-', '>']))
        (.comment (String.ofList content)) ::
          (scanFrom (offset + byteSize (['<', '!', '-', '-'] ++ (content ++ ['-', '-', '>']))) rest).1,
        (scanFrom (offset + byteSize (['<', '!', '-', '-'] ++ (content ++ ['-', '-', '>'])))
          rest).2) := by
  have hnext : scanNext offset '<' ('!' :: '-' :: '-' :: (content ++ ['-', '-', '>'] ++ rest)) = _ :=
    scanComment_eq h offset rest
  exact scanFrom_singleton hnext

/-- The scan of a text goes on behind an opening tag. -/
theorem ScannedName.scanFrom_opening {t : Tag} (h : ScannedName t.name) (offset : Nat)
    {rest : List Char} {tokens : List Token} {stop : Nat} {after : List Char}
    (hscan : scanOpening offset (t.opening ++ rest) = ⟨tokens, [], after, stop⟩) :
    scanFrom offset (t.opening ++ rest) =
      (tokens ++ (scanFrom stop after).1, (scanFrom stop after).2) := by
  obtain ⟨c, more, hname, hc, -⟩ := h
  obtain ⟨hbang, hslash⟩ := isTagStart_ne hc
  have hopening : t.opening ++ rest = '<' :: c :: (more ++ (t.inside ++ rest)) := by
    simp [Tag.opening, hname]
  have hstarts : startsMarkup ('<' :: c :: (more ++ (t.inside ++ rest))) = true := by
    rw [startsMarkup.eq_def]
    split
    · next heq => exact absurd (List.cons.inj (List.cons.inj heq).2).1 hslash
    · next heq =>
        obtain ⟨rfl, -⟩ := List.cons.inj (List.cons.inj heq).2
        simp [hc]
    · next hno => exact absurd rfl (hno _ _)
  rw [hopening] at hscan ⊢
  apply scanFrom_cons
  unfold scanNext
  simp only
  rw [if_neg (by simp [hbang.symm]), if_neg (by simp [hbang.symm]), if_pos hstarts,
    if_neg (by simpa using hslash), hscan]

/-- The scan of a text goes on behind a closing tag. -/
theorem ScannedName.scanFrom_closing {t : Tag} (h : ScannedName t.name) (offset : Nat)
    (rest : List Char) :
    scanFrom offset (t.closing ++ rest) =
      (tileToken offset t.closing (.closing t.name) ::
        (scanFrom (offset + byteSize t.closing) rest).1,
        (scanFrom (offset + byteSize t.closing) rest).2) := by
  have hscan := h.scanClosing_eq offset rest
  obtain ⟨c, more, hname, hc, -⟩ := h
  have hstarts : startsMarkup (t.closing ++ rest) = true := by
    simp [Tag.closing, hname, startsMarkup, hc]
  have hcons : t.closing ++ rest = '<' :: ('/' :: (t.name.toList ++ ['>']) ++ rest) := rfl
  rw [hcons] at hstarts hscan ⊢
  apply scanFrom_singleton
  unfold scanNext
  simp only
  rw [if_neg (by simp), if_neg (by simp), if_pos hstarts, if_pos (by simp), hscan]

/-- All tokens and findings of a text that starts at an offset, texts that follow each other joined. -/
def scanJoined (offset : Nat) (cs : List Char) : List Token × List Finding :=
  (joinTexts (scanFrom offset cs).1, (scanFrom offset cs).2)

/-- Tokens that are no texts are joined to nothing. -/
theorem joinTexts_append {before : List Token} (h : ∀ t ∈ before, t.lexeme.isText = false)
    (after : List Token) : joinTexts (before ++ after) = before ++ joinTexts after := by
  induction before with
  | nil => rfl
  | cons t rest ih =>
      obtain ⟨ht, hrest⟩ := List.forall_mem_cons.mp h
      rw [List.cons_append, joinTexts.eq_def]
      simp only [ih hrest]
      split
      · next heq _ => simp [heq, Lexeme.isText] at ht
      · rfl

/-- Joining texts does nothing to tokens that are none. -/
theorem scanJoined_append {offset stop : Nat} {cs rest : List Char} (tokens : List Token)
    (h : scanFrom offset cs = (tokens ++ (scanFrom stop rest).1, (scanFrom stop rest).2))
    (hplain : ∀ t ∈ tokens, t.lexeme.isText = false) :
    scanJoined offset cs = (tokens ++ (scanJoined stop rest).1, (scanJoined stop rest).2) := by
  rw [scanJoined, h, joinTexts_append hplain]
  rfl

/-- Joined tokens with a text in front of them, which starts at an offset. -/
def leadText (offset : Nat) (cs : List Char) : List Token → List Token
  | ⟨.text text, _, stop⟩ :: more => ⟨.text (String.ofList cs ++ text), offset, stop⟩ :: more
  | tokens => tileToken offset cs (.text (String.ofList cs)) :: tokens

/-- A text in front joins the text behind it. -/
theorem joinTexts_text (offset : Nat) (cs : List Char) (tokens : List Token) :
    joinTexts (tileToken offset cs (.text (String.ofList cs)) :: tokens) =
      leadText offset cs (joinTexts tokens) := by
  rw [joinTexts.eq_def]
  simp only [tileToken]
  split
  · next heq hjoin =>
      cases heq
      rw [hjoin]
      rfl
  · next hno =>
      unfold leadText
      split
      · next text start stop more heq => exact absurd heq (hno _ _ _ _ _ rfl)
      · rfl

/-- A text with something else behind it stays by itself. -/
theorem leadText_of_head {tokens : List Token} (h : ∀ t ∈ tokens.head?, t.lexeme.isText = false)
    (offset : Nat) (cs : List Char) :
    leadText offset cs tokens = tileToken offset cs (.text (String.ofList cs)) :: tokens := by
  unfold leadText
  split
  · next text start stop more => simp [Lexeme.isText] at h
  · rfl

/-- Texts in front of tokens are one text. -/
theorem leadText_leadText (offset : Nat) (cs more : List Char) (tokens : List Token) :
    leadText offset cs (leadText (offset + byteSize cs) more tokens) =
      leadText offset (cs ++ more) tokens := by
  unfold leadText
  split
  · next heq =>
      split at heq
      · simp only [List.cons.injEq, Token.mk.injEq, Lexeme.text.injEq] at heq
        obtain ⟨⟨rfl, -, rfl⟩, rfl⟩ := heq
        simp [String.append_assoc]
      · next hno =>
          simp only [tileToken, List.cons.injEq, Token.mk.injEq, Lexeme.text.injEq] at heq
          obtain ⟨⟨rfl, -, rfl⟩, rfl⟩ := heq
          simp [tileToken, Nat.add_assoc]
  · next hno =>
      split at hno
      · exact absurd rfl (hno _ _ _ _)
      · exact absurd rfl (hno _ _ _ _)

/-- So a text is scanned into one token with the text behind it. -/
theorem scanJoined_text {offset : Nat} {c : Char} {cs taken rest : List Char}
    (h : scanNext offset c cs = scanText offset taken rest) :
    scanJoined offset (c :: cs) = (leadText offset taken (scanJoined (offset + byteSize taken) rest).1,
      (scanJoined (offset + byteSize taken) rest).2) := by
  have hscan : scanNext offset c cs =
      ⟨[tileToken offset taken (.text (String.ofList taken))], [], rest,
        offset + byteSize taken⟩ := h
  rw [scanJoined, scanFrom_singleton hscan, joinTexts_text]
  rfl

/-- What does not start markup starts a text. -/
theorem scanNext_text (offset : Nat) {c : Char} {cs : List Char}
    (h : startsMarkup (c :: cs) = false) :
    scanNext offset c cs = scanText offset (c :: (textSpan (braceJump (c :: cs)) cs).1)
      (textSpan (braceJump (c :: cs)) cs).2 := by
  have hdeclaration : ∀ rest, c :: cs ≠ '<' :: '!' :: rest := by
    intro rest heq
    rw [heq] at h
    simp [startsMarkup] at h
  have hbang : "<!".toList.isPrefixOf (c :: cs) = false := by
    rw [Bool.eq_false_iff]
    intro hprefix
    obtain ⟨rest, hrest⟩ := List.isPrefixOf_iff_prefix.mp hprefix
    exact hdeclaration rest hrest.symm
  have hcomment : "<!--".toList.isPrefixOf (c :: cs) = false := by
    rw [Bool.eq_false_iff]
    intro hprefix
    obtain ⟨rest, hrest⟩ := List.isPrefixOf_iff_prefix.mp hprefix
    exact hdeclaration _ hrest.symm
  simp only [scanNext, hcomment, hbang, h, Bool.false_eq_true, if_false]

/-- Scanning may stop behind any front of a text that reaches up to the next markup: joining makes up
for it. -/
theorem scanJoined_front {offset : Nat} {c : Char} {cs front tail : List Char}
    (h : scanNext offset c cs = scanText offset (front ++ (textSpan 0 tail).1) (textSpan 0 tail).2) :
    scanJoined offset (c :: cs) = (leadText offset front (scanJoined (offset + byteSize front) tail).1,
      (scanJoined (offset + byteSize front) tail).2) := by
  rw [scanJoined_text h]
  cases tail with
  | nil => simp [textSpan]
  | cons d more =>
      by_cases hmarkup : startsMarkup (d :: more) = true
      · simp [textSpan, hmarkup]
      · have hplain : startsMarkup (d :: more) = false := by simpa using hmarkup
        have hspan : textSpan 0 (d :: more) = (d :: (textSpan (braceJump (d :: more)) more).1,
            (textSpan (braceJump (d :: more)) more).2) := by
          simp [textSpan, hplain, nextJump]
        rw [hspan, scanJoined_text (scanNext_text _ hplain), leadText_leadText, byteSize_append,
          Nat.add_assoc]

/-- A piece in front of a text that is read is read with it. -/
theorem scanJoined_lead (front : List Char) {tail rest : List Char} {offset : Nat}
    (hfront : scanJoined offset (front ++ (tail ++ rest)) =
      (leadText offset front (scanJoined (offset + byteSize front) (tail ++ rest)).1,
        (scanJoined (offset + byteSize front) (tail ++ rest)).2))
    (htail : ∀ offset, tail ≠ [] → scanJoined offset (tail ++ rest) =
      (leadText offset tail (scanJoined (offset + byteSize tail) rest).1,
        (scanJoined (offset + byteSize tail) rest).2)) :
    scanJoined offset (front ++ tail ++ rest) =
      (leadText offset (front ++ tail) (scanJoined (offset + byteSize (front ++ tail)) rest).1,
        (scanJoined (offset + byteSize (front ++ tail)) rest).2) := by
  rw [List.append_assoc, hfront]
  by_cases hnil : tail = []
  · simp [hnil]
  · rw [htail _ hnil, leadText_leadText, byteSize_append, Nat.add_assoc]

/-- A text without a character is not broken on it. -/
theorem breakOn_of_notMem {c : Char} {cs : List Char} (h : c ∉ cs) : breakOn [c] cs = none := by
  induction cs with
  | nil => rfl
  | cons d more ih =>
      obtain ⟨hne, hmore⟩ := not_or.mp (mt List.mem_cons.mpr h)
      simp [breakOn, hne, ih hmore]

/-- A text is broken on the first place of a character. -/
theorem breakOn_append_of_notMem {c : Char} {cs : List Char} (h : c ∉ cs) (rest : List Char) :
    breakOn [c] (cs ++ c :: rest) = some (cs, rest) := by
  induction cs with
  | nil => simp [breakOn]
  | cons d more ih =>
      obtain ⟨hne, hmore⟩ := not_or.mp (mt List.mem_cons.mpr h)
      simp [breakOn, hne, ih hmore]

/-- An exclamation mark that opens no comment opens a declaration. -/
theorem scanNext_declaration (offset : Nat) {cs : List Char} (h : ¬ ['-', '-'] <+: cs) :
    scanNext offset '<' ('!' :: cs) = scanDeclaration offset ('<' :: '!' :: cs) := by
  have hcomment : "<!--".toList.isPrefixOf ('<' :: '!' :: cs) = false := by
    rw [Bool.eq_false_iff]
    intro hprefix
    obtain ⟨rest, hrest⟩ := List.isPrefixOf_iff_prefix.mp hprefix
    exact h ⟨rest, (List.cons.inj (List.cons.inj hrest).2).2⟩
  have hbang : "<!".toList.isPrefixOf ('<' :: '!' :: cs) = true := by simp
  simp only [scanNext, hcomment, hbang, Bool.false_eq_true, if_false, if_true]

/-- A text is read up to the rest behind it, once its pieces are joined. -/
theorem ReadsText.scanJoined_eq {text rest : List Char} (h : ReadsText rest text) (offset : Nat)
    (hne : text ≠ []) : scanJoined offset (text ++ rest) =
      (leadText offset text (scanJoined (offset + byteSize text) rest).1,
        (scanJoined (offset + byteSize text) rest).2) := by
  induction h generalizing offset with
  | nil => exact absurd rfl hne
  | @char c tail hmarkup hopen _ ih =>
      have hread : scanNext offset c (tail ++ rest) =
          scanText offset ([c] ++ (textSpan 0 (tail ++ rest)).1) (textSpan 0 (tail ++ rest)).2 := by
        rw [scanNext_text offset hmarkup, braceJump_of_braceSpan hopen]
        rfl
      exact scanJoined_lead [c] (scanJoined_front hread) ih
  | @span inner tail hinner _ ih =>
      have hjump := textSpan_jump (inner ++ ['\x7d']) (tail ++ rest)
      simp only [List.length_append, List.length_singleton, List.append_assoc,
        List.singleton_append] at hjump
      have hread : scanNext offset '\x7b' (inner ++ '\x7d' :: (tail ++ rest)) =
          scanText offset ('\x7b' :: (inner ++ ['\x7d']) ++ (textSpan 0 (tail ++ rest)).1)
            (textSpan 0 (tail ++ rest)).2 := by
        rw [scanNext_text offset (startsMarkup_of_ne (by decide) _), hinner.braceJump_eq, hjump]
        simp
      have hlead := scanJoined_lead ('\x7b' :: (inner ++ ['\x7d']))
        (by simpa using scanJoined_front hread) ih
      simpa using hlead
  | @declaration inner tail hinner hcomment _ ih =>
      have hdashes : ¬ ['-', '-'] <+: inner ++ '>' :: (tail ++ rest) := by
        match inner with
        | [] => simp
        | [d] => simp
        | d :: e :: more => simpa using hcomment
      have hclean : '>' ∉ '<' :: '!' :: inner := by simpa using hinner
      have hread : scanNext offset '<' ('!' :: (inner ++ '>' :: (tail ++ rest))) =
          scanText offset ('<' :: '!' :: (inner ++ ['>'])) (tail ++ rest) := by
        have hbreak := breakOn_append_of_notMem hclean (tail ++ rest)
        simp only [List.cons_append] at hbreak
        simp only [scanNext_declaration offset hdashes, scanDeclaration, hbreak, List.cons_append]
      have hlead := scanJoined_lead ('<' :: '!' :: (inner ++ ['>']))
        (by simpa using scanJoined_text hread) ih
      simpa using hlead
  | @unended inner hinner hcomment hrest =>
      have hclean : '>' ∉ '<' :: '!' :: inner := by simpa using hinner
      have hread : scanNext offset '<' ('!' :: inner) = scanText offset ('<' :: '!' :: inner) [] := by
        simp only [scanNext_declaration offset hcomment, scanDeclaration, breakOn_of_notMem hclean]
      rw [hrest, List.append_nil]
      exact scanJoined_text hread

/-- An element with raw content is not one without content. -/
theorem isVoid_of_isRawText {name : String} (h : isRawText name = true) : isVoid name = false := by
  have hdisjoint : ∀ n ∈ rawNames, voidNames.contains n = false := by decide
  exact hdisjoint _ (by simpa [isRawText] using h)

/-- An element that holds a raw body is one of those that have them, and is not closed by itself. -/
theorem Tag.Scanned.isRawText_of_holdsRaw {affix : Bool} {t : Tag} (h : t.Scanned affix)
    (hraw : t.holdsRaw = true) : isRawText t.name = true ∧ (t.selfClosing || t.empty) = false := by
  simp only [Tag.holdsRaw, Bool.and_eq_true, Bool.not_eq_true'] at hraw
  rw [h.empty, hraw.1, isVoid_of_isRawText hraw.2]
  exact ⟨hraw.2, rfl⟩

/-- The first token of a tree is a text exactly if the tree is. -/
theorem Tree.isText_head (offset : Nat) (t : Tree) :
    ∀ u ∈ (t.tokens offset).head?, u.lexeme.isText = t.isText := by
  cases t <;> simp [Tree.tokens, tileToken, Tag.token, Lexeme.isText, Tree.isText]

/-- So is that of a list of trees, by its first tree. -/
theorem isText_head_treesTokens {offset : Nat} {ts : List Tree} {u : Token}
    (hu : u ∈ (treesTokens offset ts).head?) (htext : u.lexeme.isText = true) :
    ts.head?.any Tree.isText = true := by
  match ts with
  | [] => simp [treesTokens] at hu
  | t :: more =>
      have hhead := t.isText_head offset u
      rw [treesTokens, List.head?_append] at hu
      cases ht : (t.tokens offset).head? with
      | none =>
          cases t <;> simp [Tree.tokens] at ht
      | some v =>
          simp only [ht, Option.some_or, Option.mem_def, Option.some.injEq] at hu hhead
          simpa [← hhead hu] using htext

/-- What stands behind a closing tag does not belong to a text before it. -/
theorem ScannedName.scanJoined_closing {t : Tag} (h : ScannedName t.name) (offset : Nat)
    (rest : List Char) :
    scanJoined offset (t.closing ++ rest) =
      (tileToken offset t.closing (.closing t.name) ::
        (scanJoined (offset + byteSize t.closing) rest).1,
        (scanJoined (offset + byteSize t.closing) rest).2) :=
  scanJoined_append [tileToken offset t.closing (.closing t.name)]
    (h.scanFrom_closing offset rest) (by simp [tileToken, Lexeme.isText])

mutual

/-- A legible tree is read as its tokens. -/
theorem scanJoined_tree {affix : Bool} (t : Tree) (h : t.Scanned affix) {rest : List Char}
    (hlegible : t.Legible rest) (offset : Nat)
    (hrest : t.isText = true →
      ∀ u ∈ (scanJoined (offset + byteSize t.chars) rest).1.head?, u.lexeme.isText = false) :
    scanJoined offset (t.chars ++ rest) =
      (t.tokens offset ++ (scanJoined (offset + byteSize t.chars) rest).1,
        (scanJoined (offset + byteSize t.chars) rest).2) := by
  match t with
  | .text text =>
      have hne : text.toList ≠ [] := fun hnil => h (String.toList_eq_nil_iff.mp hnil)
      have hread := ReadsText.scanJoined_eq hlegible offset hne
      simp only [Tree.chars] at hrest
      rw [leadText_of_head (hrest rfl), String.ofList_toList] at hread
      exact hread
  | .comment content =>
      have hread := scanFrom_comment h offset rest
      rw [String.ofList_toList] at hread
      exact scanJoined_append [_] hread (by simp [tileToken, Lexeme.isText])
  | .element tag children =>
      simp only [Tree.Scanned] at h
      simp only [Tree.Legible] at hlegible
      obtain ⟨htag, hleaf, hchildren⟩ := h
      obtain ⟨hattributes, hbelow⟩ := hlegible
      have hopening := htag.scanOpening_eq offset hattributes
      have hchars : (Tree.element tag children).chars ++ rest =
          tag.opening ++ (tag.behind children ++ rest) := List.append_assoc _ _ _
      rw [hchars]
      by_cases hraw : tag.holdsRaw = true
      · obtain ⟨hname, hempty⟩ := htag.isRawText_of_holdsRaw hraw
        obtain ⟨body, hbody, hunclosed⟩ := htag.raw hraw
        have hnil := hleaf (.inr hraw)
        subst hnil
        have hbehind : tag.behind [] ++ rest = body.toList ++ (tag.closing ++ rest) := by
          simp [Tag.behind, hempty, hbody, treesChars]
        have hcontent := htag.name.scanRaw_eq hunclosed hname (offset + byteSize tag.opening) rest
        rw [String.ofList_toList] at hcontent
        rw [hbehind, if_pos hraw, hcontent] at hopening
        rw [hbehind]
        have hread := scanJoined_append _ (htag.name.scanFrom_opening offset hopening)
          (by simp [Tag.token, tileToken, Lexeme.isText])
        rw [hread]
        simp [Tree.chars, Tree.tokens, hempty, hbody, treesChars, treesTokens, Tag.rawTokens,
          Nat.add_assoc]
      · have hplain := htag.plain (by simpa using hraw)
        rw [if_neg hraw] at hopening
        have hread := scanJoined_append _ (htag.name.scanFrom_opening offset hopening)
          (by simp [Tag.token, tileToken, Lexeme.isText])
        rw [hread]
        by_cases hempty : (tag.selfClosing || tag.empty) = true
        · simp [Tree.chars, Tree.tokens, Tag.behind, hempty]
        · have hclosing := htag.name.scanJoined_closing
            (offset + byteSize tag.opening + byteSize (treesChars children)) rest
          have hinside := scanJoined_trees children hchildren hbelow
            (offset + byteSize tag.opening) (by rw [hclosing]; simp [tileToken, Lexeme.isText])
          rw [hclosing] at hinside
          simp [Tree.chars, Tree.tokens, Tag.behind, hempty, hplain, Tag.rawTokens, hinside,
            Nat.add_assoc]

/-- **Reading what was written.**  Legible trees are read as their tokens. -/
theorem scanJoined_trees {affix : Bool} (ts : List Tree) (h : TreesScanned affix ts)
    {rest : List Char} (hlegible : TreesLegible rest ts) (offset : Nat)
    (hrest : ∀ u ∈ (scanJoined (offset + byteSize (treesChars ts)) rest).1.head?,
      u.lexeme.isText = false) :
    scanJoined offset (treesChars ts ++ rest) =
      (treesTokens offset ts ++ (scanJoined (offset + byteSize (treesChars ts)) rest).1,
        (scanJoined (offset + byteSize (treesChars ts)) rest).2) := by
  match ts with
  | [] => simp [treesChars, treesTokens]
  | t :: more =>
      simp only [TreesScanned] at h
      simp only [TreesLegible] at hlegible
      obtain ⟨ht, hbeside, hmore⟩ := h
      simp only [treesChars, byteSize_append, ← Nat.add_assoc] at hrest
      have hlater := scanJoined_trees more hmore hlegible.2 (offset + byteSize t.chars) hrest
      have hfirst := scanJoined_tree t ht hlegible.1 offset (by
        -- behind a text comes something else, or what is known to be no text
        intro htext u hu
        rw [hlater, List.head?_append] at hu
        cases hhead : (treesTokens (offset + byteSize t.chars) more).head? with
        | none =>
            rw [hhead, Option.none_or] at hu
            exact hrest u hu
        | some v =>
            rw [hhead, Option.some_or, Option.mem_def, Option.some.injEq] at hu
            rw [← hu, Bool.eq_false_iff]
            exact fun hv => hbeside ⟨htext, isText_head_treesTokens hhead hv⟩)
      simp only [treesChars, treesTokens, List.append_assoc, byteSize_append, hfirst, hlater,
        Nat.add_assoc]

end

end Stencil.Markup
