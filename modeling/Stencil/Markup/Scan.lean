import Stencil.Markup.Brace
import Stencil.Markup.Tag
import Stencil.Markup.Token
import Stencil.Text.Search

/-!
# Scanning markup

`scan` cuts a template into tokens.  An angle bracket starts markup only before a tag name, a slash
and a tag name, or an exclamation mark, and never inside a span in braces.  The content of some
elements is taken as it stands up to their closing tag.

Each scanner returns what it leaves unread; the lemmas `length_…` bound it by what it was given,
which is why `scan` ends.
-/

namespace Stencil.Markup

open Stencil.Text

/-- The number of characters after the first one that belong to a span in braces. -/
def braceJump (cs : List Char) : Nat :=
  match braceSpan cs with
  | some (inner, _) => inner.length + 1
  | none => 0

/-- The jump of the next character inside a jump, or the jump that starts at a character. -/
def nextJump (jump : Nat) (cs : List Char) : Nat := if 0 < jump then jump - 1 else braceJump cs

/-- Whether markup starts here. -/
def startsMarkup : List Char → Bool
  | '<' :: '/' :: c :: _ => isTagStart c
  | '<' :: c :: _ => c == '!' || isTagStart c
  | _ => false

/-- The text up to the next markup, and the rest; `jump` characters are taken in any case. -/
def textSpan (jump : Nat) : List Char → List Char × List Char
  | [] => ([], [])
  | c :: rest =>
      if jump = 0 && startsMarkup (c :: rest) then ([], c :: rest)
      else
        let (taken, tail) := textSpan (nextJump jump (c :: rest)) rest
        (c :: taken, tail)

/-- A value up to its closing quote, and what follows the quote if there is one. -/
def quotedSpan (quote : Char) (jump : Nat) : List Char → List Char × Option (List Char)
  | [] => ([], none)
  | c :: rest =>
      if jump = 0 && c == quote then ([], some rest)
      else
        let (value, tail) := quotedSpan quote (nextJump jump (c :: rest)) rest
        (c :: value, tail)

/-- A value without quotes, and the rest. -/
def unquotedSpan : List Char → List Char × List Char
  | [] => ([], [])
  | c :: rest =>
      if isBlank c || c == '>' || (c == '/' && rest.head? == some '>') then ([], c :: rest)
      else
        let (value, tail) := unquotedSpan rest
        (c :: value, tail)

/-- Whether a closing tag starts here whose name, in lower case and after `</`, is `needle`. -/
def closesRaw (needle cs : List Char) : Bool :=
  (cs.take needle.length).map lowerChar == needle &&
    match cs.drop needle.length with
    | [] => true
    | c :: _ => c == '>' || isBlank c

/-- The text up to a closing tag, and the rest from that tag on. -/
def rawSpan (needle : List Char) : List Char → List Char × List Char
  | [] => ([], [])
  | c :: rest =>
      if closesRaw needle (c :: rest) then ([], c :: rest)
      else
        let (taken, tail) := rawSpan needle rest
        (c :: taken, tail)

/-- A value as it was scanned. -/
structure ValueScan where
  value : List Char
  quote : Quote
  problem : Option Problem
  rest : List Char

/-- A value in quotes, after the opening one. -/
def scanQuoted (mark : Char) (quote : Quote) (cs : List Char) : ValueScan :=
  match quotedSpan mark 0 cs with
  | (value, some rest) => ⟨value, quote, none, rest⟩
  | (value, none) => ⟨value, quote, some .unterminatedValue, []⟩

/-- A value. -/
def scanValue : List Char → ValueScan
  | '"' :: rest => scanQuoted '"' .double rest
  | '\'' :: rest => scanQuoted '\'' .single rest
  | '\x7b' :: rest =>
      match closing 0 .code rest with
      | some (inner, tail) => ⟨inner, .brace, none, tail⟩
      | none => ⟨rest, .brace, some .unterminatedExpression, []⟩
  | cs =>
      let (value, rest) := unquotedSpan cs
      ⟨value, .unquoted, none, rest⟩

/-- Whether the character continues the name of an attribute. -/
def isAttributePart (c : Char) : Bool :=
  !(isBlank c || c == '=' || c == '>' || c == '/' || c == '"' || c == '\'')

/-- An attribute as it was scanned. -/
structure AttributeScan where
  name : List Char
  value : Option (List Char × Quote)
  problem : Option Problem
  rest : List Char

/-- An attribute: a value in braces alone, or a name with or without a value.  A character that
starts neither is no attribute. -/
def scanAttribute (cs : List Char) : Option AttributeScan :=
  if cs.head? == some '\x7b' then
    let v := scanValue cs
    some ⟨[], some (v.value, v.quote), v.problem, v.rest⟩
  else
    let name := cs.takeWhile isAttributePart
    let after := cs.dropWhile isAttributePart
    if name.isEmpty then none
    else
      match after.dropWhile isBlank with
      | '=' :: tail =>
          let v := scanValue (tail.dropWhile isBlank)
          some ⟨name, some (v.value, v.quote), v.problem, v.rest⟩
      | _ => some ⟨name, none, none, after⟩

/-- What is behind a text is no longer than the characters given. -/
theorem length_textSpan (jump : Nat) (cs : List Char) :
    (textSpan jump cs).2.length ≤ cs.length := by
  induction cs generalizing jump with
  | nil => simp [textSpan]
  | cons c rest ih =>
      simp only [textSpan]
      split
      · simp
      · exact Nat.le_succ_of_le (ih _)

/-- What is behind a quoted value is no longer than the characters given. -/
theorem length_quotedSpan {quote : Char} {jump : Nat} {cs value rest : List Char}
    (h : quotedSpan quote jump cs = (value, some rest)) : rest.length ≤ cs.length := by
  induction cs generalizing jump value with
  | nil => simp [quotedSpan] at h
  | cons c tail ih =>
      simp only [quotedSpan] at h
      split at h
      · simp only [Prod.mk.injEq, Option.some.injEq] at h
        simp [← h.2]
      · simp only [Prod.mk.injEq] at h
        exact Nat.le_succ_of_le (ih (Prod.ext rfl h.2))

/-- What is behind an unquoted value is no longer than the characters given. -/
theorem length_unquotedSpan (cs : List Char) : (unquotedSpan cs).2.length ≤ cs.length := by
  induction cs with
  | nil => simp [unquotedSpan]
  | cons c rest ih =>
      simp only [unquotedSpan]
      split
      · simp
      · exact Nat.le_succ_of_le ih

/-- What is behind a raw body is no longer than the characters given. -/
theorem length_rawSpan (needle cs : List Char) : (rawSpan needle cs).2.length ≤ cs.length := by
  induction cs with
  | nil => simp [rawSpan]
  | cons c rest ih =>
      simp only [rawSpan]
      split
      · simp
      · exact Nat.le_succ_of_le ih

/-- What is left of a list is no longer than it. -/
theorem length_dropWhile (p : Char → Bool) (cs : List Char) :
    (cs.dropWhile p).length ≤ cs.length :=
  (List.dropWhile_suffix p).length_le

/-- What is behind a value and its closing mark is no longer than the characters given. -/
theorem length_scanQuoted (mark : Char) (quote : Quote) (cs : List Char) :
    (scanQuoted mark quote cs).rest.length ≤ cs.length := by
  unfold scanQuoted
  split
  · next h => exact length_quotedSpan h
  · simp

/-- What is behind a value is no longer than the characters given. -/
theorem length_scanValue (cs : List Char) : (scanValue cs).rest.length ≤ cs.length := by
  unfold scanValue
  split
  · exact Nat.le_succ_of_le (length_scanQuoted _ _ _)
  · exact Nat.le_succ_of_le (length_scanQuoted _ _ _)
  · split
    · next h => simp [closing_eq h]; omega
    · simp
  · exact length_unquotedSpan _

/-- A value in braces uses a character at least. -/
theorem length_scanValue_brace {cs : List Char} (h : cs.head? = some '\x7b') :
    (scanValue cs).rest.length < cs.length := by
  cases cs with
  | nil => simp at h
  | cons c rest =>
      simp only [List.head?_cons, Option.some.injEq] at h
      subst h
      simp only [scanValue]
      split
      · next h => simp [closing_eq h]; omega
      · simp

/-- An attribute takes at least one character. -/
theorem length_scanAttribute {cs : List Char} {a : AttributeScan} (h : scanAttribute cs = some a) :
    a.rest.length < cs.length := by
  unfold scanAttribute at h
  split at h
  · next hb =>
      rw [Option.some.injEq] at h
      subst h
      exact length_scanValue_brace (by simpa using hb)
  · dsimp only at h
    split at h
    · simp at h
    · next hn =>
        have hlt : (cs.dropWhile isAttributePart).length < cs.length := by
          have hsum := congrArg List.length
            (List.takeWhile_append_dropWhile (p := isAttributePart) (l := cs))
          simp only [List.length_append] at hsum
          have hpos : 0 < (cs.takeWhile isAttributePart).length := by
            cases hc : cs.takeWhile isAttributePart with
            | nil => simp [hc] at hn
            | cons => simp
          omega
        split at h
        · next tail ht =>
            rw [Option.some.injEq] at h
            subst h
            have h₁ := length_scanValue (tail.dropWhile isBlank)
            have h₂ := length_dropWhile isBlank tail
            have h₃ := length_dropWhile isBlank (cs.dropWhile isAttributePart)
            rw [ht] at h₃
            simp only [List.length_cons] at h₃
            dsimp only
            omega
        · rw [Option.some.injEq] at h
          subst h
          exact hlt

/-- The inside of an opening tag as it was scanned. -/
structure TagScan where
  attributes : List AttributeToken := []
  findings : List Finding := []
  selfClosing : Bool := false
  /-- Whether the tag has an end. -/
  ended : Bool := true
  rest : List Char
  /-- The offset of the rest. -/
  stop : Nat

/-- The token of an attribute that starts at an offset in a text. -/
def AttributeScan.token (a : AttributeScan) (start : Nat) (cs : List Char) : AttributeToken :=
  let raw := cs.take (cs.length - a.rest.length)
  { name := String.ofList a.name
    value := a.value.map fun (value, quote) => (String.ofList value, quote)
    raw := String.ofList raw
    start
    stop := start + byteSize raw }

/-- The attributes of a tag, up to its end. -/
def scanAttributes (offset : Nat) (cs : List Char) : TagScan :=
  let start := offset + byteSize (cs.takeWhile isBlank)
  match h : cs.dropWhile isBlank with
  | [] => { ended := false, rest := [], stop := start }
  | '/' :: '>' :: rest => { selfClosing := true, rest, stop := start + 2 }
  | '>' :: rest => { rest, stop := start + 1 }
  | c :: rest =>
      have hlen : rest.length < cs.length := by
        have := length_dropWhile isBlank cs
        rw [h] at this
        exact this
      match ha : scanAttribute (c :: rest) with
      | none => scanAttributes (start + c.utf8Size) rest
      | some a =>
          have : a.rest.length < cs.length := by
            have := length_scanAttribute ha
            simp only [List.length_cons] at this
            omega
          let token := a.token start (c :: rest)
          let more := scanAttributes token.stop a.rest
          let found := a.problem.toList.map (⟨·, start, token.stop⟩)
          { more with attributes := token :: more.attributes, findings := found ++ more.findings }
termination_by cs.length

/-- What is behind the attributes is no longer than the characters given. -/
theorem length_scanAttributes (offset : Nat) (cs : List Char) :
    (scanAttributes offset cs).rest.length ≤ cs.length := by
  fun_induction scanAttributes offset cs with
  | case1 => simp
  | case2 offset cs start rest h =>
      have := length_dropWhile isBlank cs
      rw [h] at this
      simp only [List.length_cons] at this
      show rest.length ≤ cs.length
      omega
  | case3 offset cs start rest h =>
      have := length_dropWhile isBlank cs
      rw [h] at this
      simp only [List.length_cons] at this
      show rest.length ≤ cs.length
      omega
  | case4 offset cs start c rest _ _ h hlen ha ih => omega
  | case5 offset cs start c rest _ _ h hlen a ha hlt token more found ih =>
      have : more.rest.length ≤ a.rest.length := ih
      show more.rest.length ≤ cs.length
      omega

/-- Some tokens as they were scanned. -/
structure Scan where
  tokens : List Token
  findings : List Finding := []
  rest : List Char
  /-- The offset of the rest. -/
  stop : Nat

/-- A closing tag, from its `</` on. -/
def scanClosing (offset : Nat) (cs : List Char) : Scan :=
  let name := (cs.drop 2).takeWhile isTagPart
  let inside := (cs.drop 2).dropWhile isTagPart
  let skipped := inside.takeWhile (· != '>')
  let before := offset + 2 + byteSize name + byteSize skipped
  let text := String.ofList name
  match inside.dropWhile (· != '>') with
  | _ :: rest => ⟨[⟨.closing text, offset, before + 1⟩], [], rest, before + 1⟩
  | [] =>
      ⟨[⟨.closing text, offset, before⟩], [⟨.unterminatedClosing text, offset, before⟩], [], before⟩

/-- The content of an element that holds no markup, and its closing tag. -/
def scanRaw (name : String) (offset : Nat) (cs : List Char) : Scan :=
  let (raw, rest) := rawSpan ("</".toList ++ name.toList.map lowerChar) cs
  let stop := offset + byteSize raw
  let token : Token := ⟨.raw (String.ofList raw), offset, stop⟩
  match rest with
  | [] => ⟨[token], [], [], stop⟩
  | _ =>
      let close := scanClosing stop rest
      { close with tokens := token :: close.tokens }

/-- An opening tag, from its angle bracket on, with the content of an element that holds no
markup. -/
def scanOpening (offset : Nat) (cs : List Char) : Scan :=
  let name := (cs.drop 1).takeWhile isTagPart
  let tag := scanAttributes (offset + 1 + byteSize name) ((cs.drop 1).dropWhile isTagPart)
  let text := String.ofList name
  let token : Token := ⟨.opening text tag.attributes tag.selfClosing, offset, tag.stop⟩
  let found := tag.findings ++ if tag.ended then [] else [⟨.endInsideTag text, offset, tag.stop⟩]
  if !tag.selfClosing && isRawText text then
    let content := scanRaw text tag.stop tag.rest
    { content with tokens := token :: content.tokens, findings := found ++ content.findings }
  else ⟨[token], found, tag.rest, tag.stop⟩

/-- A comment, from its `<!--` on. -/
def scanComment (offset : Nat) (cs : List Char) : Scan :=
  let body := cs.drop 4
  match breakOn "-->".toList body with
  | some (content, rest) =>
      let stop := offset + 4 + byteSize content + 3
      ⟨[⟨.comment (String.ofList content), offset, stop⟩], [], rest, stop⟩
  | none =>
      let stop := offset + 4 + byteSize body
      ⟨[⟨.comment (String.ofList body), offset, stop⟩], [⟨.unterminatedComment, offset, stop⟩], [],
        stop⟩

/-- A text token. -/
def scanText (offset : Nat) (taken rest : List Char) : Scan :=
  let stop := offset + byteSize taken
  ⟨[⟨.text (String.ofList taken), offset, stop⟩], [], rest, stop⟩

/-- A declaration such as a document type, which is kept as text. -/
def scanDeclaration (offset : Nat) (cs : List Char) : Scan :=
  match breakOn ['>'] cs with
  | some (before, rest) => scanText offset (before ++ ['>']) rest
  | none => scanText offset cs []

/-- What stands at the start of a text, the first character of which is given apart. -/
def scanNext (offset : Nat) (c : Char) (cs : List Char) : Scan :=
  let all := c :: cs
  if "<!--".toList.isPrefixOf all then scanComment offset all
  else if "<!".toList.isPrefixOf all then scanDeclaration offset all
  else if startsMarkup all then
    if cs.head? == some '/' then scanClosing offset all else scanOpening offset all
  else
    let (taken, rest) := textSpan (braceJump all) cs
    scanText offset (c :: taken) rest

/-- What is behind a closing tag is shorter than the characters given. -/
theorem length_scanClosing (offset : Nat) (c : Char) (cs : List Char) :
    (scanClosing offset (c :: cs)).rest.length ≤ cs.length := by
  unfold scanClosing
  have h₁ := length_dropWhile isTagPart ((c :: cs).drop 2)
  have h₂ := length_dropWhile (· != '>') (((c :: cs).drop 2).dropWhile isTagPart)
  have h₃ : ((c :: cs).drop 2).length ≤ cs.length := by simp
  dsimp only
  split
  · next hd =>
      rw [hd] at h₂
      simp only [List.length_cons] at h₂
      dsimp only
      omega
  · simp

/-- What is behind an element with a raw body is no longer than the characters given. -/
theorem length_scanRaw (name : String) (offset : Nat) (cs : List Char) :
    (scanRaw name offset cs).rest.length ≤ cs.length := by
  unfold scanRaw
  have h := length_rawSpan ("</".toList ++ name.toList.map lowerChar) cs
  dsimp only
  split
  · simp
  · next hne =>
      cases hr : (rawSpan ("</".toList ++ name.toList.map lowerChar) cs).2 with
      | nil => exact absurd hr hne
      | cons d rest =>
          have hc := length_scanClosing
            (offset + byteSize (rawSpan ("</".toList ++ name.toList.map lowerChar) cs).1) d rest
          rw [hr] at h
          simp only [List.length_cons] at h
          show (scanClosing _ (d :: rest)).rest.length ≤ cs.length
          omega

/-- What is behind an opening tag is shorter than the characters given. -/
theorem length_scanOpening (offset : Nat) (c : Char) (cs : List Char) :
    (scanOpening offset (c :: cs)).rest.length ≤ cs.length := by
  unfold scanOpening
  have h₁ := length_dropWhile isTagPart cs
  have h₂ := length_scanAttributes (offset + 1 + byteSize (cs.takeWhile isTagPart))
    (cs.dropWhile isTagPart)
  dsimp only [List.drop_succ_cons, List.drop_zero]
  split
  · have h₃ := length_scanRaw (String.ofList (cs.takeWhile isTagPart))
      (scanAttributes (offset + 1 + byteSize (cs.takeWhile isTagPart))
        (cs.dropWhile isTagPart)).stop
      (scanAttributes (offset + 1 + byteSize (cs.takeWhile isTagPart))
        (cs.dropWhile isTagPart)).rest
    exact Nat.le_trans h₃ (Nat.le_trans h₂ h₁)
  · exact Nat.le_trans h₂ h₁

/-- What is behind a comment is shorter than the characters given. -/
theorem length_scanComment (offset : Nat) (c : Char) (cs : List Char) :
    (scanComment offset (c :: cs)).rest.length ≤ cs.length := by
  unfold scanComment
  dsimp only
  split
  · next h =>
      have := length_le_of_breakOn h
      simp only [List.length_drop, List.length_cons] at this
      dsimp only
      omega
  · simp

/-- What is behind a declaration is shorter than the characters given. -/
theorem length_scanDeclaration (offset : Nat) (c : Char) (cs : List Char) :
    (scanDeclaration offset (c :: cs)).rest.length ≤ cs.length := by
  unfold scanDeclaration
  split
  · next before rest h =>
      have := congrArg List.length (breakOn_eq h)
      simp at this
      show rest.length ≤ cs.length
      omega
  · simp [scanText]

/-- Every step of the scan takes at least one character. -/
theorem length_scanNext (offset : Nat) (c : Char) (cs : List Char) :
    (scanNext offset c cs).rest.length ≤ cs.length := by
  unfold scanNext
  dsimp only
  split
  · exact length_scanComment _ _ _
  · split
    · exact length_scanDeclaration _ _ _
    · split
      · split
        · exact length_scanClosing _ _ _
        · exact length_scanOpening _ _ _
      · exact length_textSpan _ _

/-- All tokens and findings of a text that starts at the given offset. -/
def scanFrom (offset : Nat) : List Char → List Token × List Finding
  | [] => ([], [])
  | c :: cs =>
      let s := scanNext offset c cs
      let (tokens, findings) := scanFrom s.stop s.rest
      (s.tokens ++ tokens, s.findings ++ findings)
termination_by cs => cs.length
decreasing_by exact Nat.lt_succ_of_le (length_scanNext offset c cs)

/-- The tokens with texts that follow each other joined. -/
def joinTexts : List Token → List Token
  | [] => []
  | t :: rest =>
      match t.lexeme, joinTexts rest with
      | .text a, ⟨.text b, _, stop⟩ :: more => ⟨.text (a ++ b), t.start, stop⟩ :: more
      | _, joined => t :: joined

/-- The tokens of a template, and the problems met on the way. -/
def scan (source : String) : List Token × List Finding :=
  let (tokens, findings) := scanFrom 0 source.toList
  (joinTexts tokens, findings)

end Stencil.Markup
