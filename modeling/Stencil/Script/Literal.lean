import Stencil.Script.Token
import Stencil.Text.Chars
import Stencil.Text.IdentifierStart
import Stencil.Text.IdentifierPart

/-!
# Inside words and literals

The extent and the value of words, strings and template texts.  Every function here recurses on
the characters.  An escape is read ahead without recursion by `escape?`, which says what it denotes
and how many characters it takes; the recursion then runs through those characters with a counter.
-/

namespace Stencil.Script

open Stencil.Text

/-- White space between tokens, line ends apart. -/
def isGap (c : Char) : Bool :=
  let n := c.toNat
  n == 9 || n == 11 || n == 12 || n == 0x20 || n == 0x85 || n == 0xa0 || n == 0x1680 ||
    (0x2000 ≤ n && n ≤ 0x200b) || n == 0x202f || n == 0x205f || n == 0x3000 || n == 0xfeff

/-- A character that ends a line. -/
def isLineEnd (c : Char) : Bool :=
  c == '\n' || c == '\r' || c.toNat == 0x2028 || c.toNat == 0x2029

/-- A character that starts a word. -/
def startsWord (c : Char) : Bool :=
  if c.toNat < 128 then isNameStart c else isIdStart c

/-- A character that continues a word. -/
def continuesWord (c : Char) : Bool :=
  if c.toNat < 128 then isNamePart c else isIdPart c || c.toNat == 0x200c || c.toNat == 0x200d

/-- Value of a hexadecimal digit. -/
def hexDigit? (c : Char) : Option Nat :=
  if isDigit c then some (c.toNat - 48)
  else if 'a' ≤ c ∧ c ≤ 'f' then some (c.toNat - 87)
  else if 'A' ≤ c ∧ c ≤ 'F' then some (c.toNat - 55)
  else none

/-- Value of hexadecimal digits. -/
def hexValue? (cs : List Char) : Option Nat :=
  cs.foldlM (fun value c => (hexDigit? c).map (value * 16 + ·)) 0

/-- Value and length of a code point escape, read from the `u` on. -/
def unicodeEscape? : List Char → Option (Nat × Nat)
  | 'u' :: '\x7b' :: rest =>
      let digits := rest.takeWhile fun c => (hexDigit? c).isSome
      match rest.drop digits.length with
      | '\x7d' :: _ =>
          if digits.isEmpty then none
          else (hexValue? digits).bind fun n =>
            if n ≤ 0x10ffff then some (n, digits.length + 3) else none
      | _ => none
  | 'u' :: a :: b :: c :: d :: _ => (hexValue? [a, b, c, d]).map (·, 5)
  | _ => none

/-- Raw characters of the word at the start of a text, and what follows it. -/
def wordSpan (skip : Nat) : List Char → List Char × List Char
  | [] => ([], [])
  | c :: rest =>
      let after (n : Nat) := let (raw, tail) := wordSpan n rest; (c :: raw, tail)
      if 0 < skip then after (skip - 1)
      else if continuesWord c then after 0
      else if c == '\\' then after ((unicodeEscape? rest).map (·.2) |>.getD 0)
      else ([], c :: rest)

/-- The characters a raw word denotes, if its escapes stand for characters of words. -/
def decodeWord (skip : Nat) (start : Bool) : List Char → Option (List Char)
  | [] => some []
  | c :: rest =>
      if 0 < skip then decodeWord (skip - 1) start rest
      else if c == '\\' then
        match unicodeEscape? rest with
        | some (n, length) =>
            let d := Char.ofNat n
            if (if start then startsWord d else continuesWord d) then
              (decodeWord length false rest).map (d :: ·)
            else none
        | none => none
      else if start && !startsWord c then none
      else (decodeWord 0 false rest).map (c :: ·)

/-- The first half of a surrogate pair. -/
def isHighHalf (n : Nat) : Bool := 0xd800 ≤ n && n ≤ 0xdbff

/-- The second half of a surrogate pair. -/
def isLowHalf (n : Nat) : Bool := 0xdc00 ≤ n && n ≤ 0xdfff

/-- Half of a surrogate pair. -/
def isHalf (n : Nat) : Bool := isHighHalf n || isLowHalf n

/-- Value of an octal digit. -/
def octalDigit? (c : Char) : Option Nat :=
  if '0' ≤ c ∧ c ≤ '7' then some (c.toNat - 48) else none

/-- Value and length of an octal escape: three digits if the first is at most three, else two. -/
def octalEscape (first : Nat) (rest : List Char) : Nat × Nat :=
  match rest with
  | b :: tail =>
      match octalDigit? b with
      | some y =>
          match decide (first ≤ 3), tail with
          | true, c :: _ =>
              match octalDigit? c with
              | some z => (first * 64 + y * 8 + z, 3)
              | none => (first * 8 + y, 2)
          | _, _ => (first * 8 + y, 2)
      | none => (first, 1)
  | [] => (first, 1)

/-- Code points an escape denotes and its length, read from the character after the backslash.
Template texts have no octal escapes. -/
def escape? (template : Bool) : List Char → Option (List Nat × Nat)
  | [] => none
  | c :: rest =>
      let nextIsDigit := match rest with | d :: _ => isDigit d | [] => false
      match c with
      | '\n' => some ([], 1)
      | '\r' => match rest with | '\n' :: _ => some ([], 2) | _ => some ([], 1)
      | 'b' => some ([8], 1)
      | 'f' => some ([12], 1)
      | 'n' => some ([10], 1)
      | 'r' => some ([13], 1)
      | 't' => some ([9], 1)
      | 'v' => some ([11], 1)
      | 'x' =>
          match rest with
          | a :: b :: _ => (hexValue? [a, b]).map fun n => ([n], 3)
          | _ => none
      | 'u' =>
          match unicodeEscape? (c :: rest) with
          | none => none
          | some (n, length) =>
              if isHighHalf n && length == 5 then
                match rest.drop 4 with
                | '\\' :: 'u' :: e :: f :: g :: h :: _ =>
                    match hexValue? [e, f, g, h] with
                    | some low =>
                        if isLowHalf low then
                          some ([0x10000 + (n - 0xd800) * 0x400 + (low - 0xdc00)], 11)
                        else some ([n], length)
                    | none => some ([n], length)
                | _ => some ([n], length)
              else some ([n], length)
      | _ =>
          if c == '0' && !nextIsDigit then some ([0], 1)
          else if template && isDigit c then none
          else if isLineEnd c then some ([], 1)
          else
            match octalDigit? c with
            | some first => let (n, length) := octalEscape first rest; some ([n], length)
            | none => some ([c.toNat], 1)

/-- Code points that the raw characters of a string or template text denote. -/
def decodeText (template : Bool) (skip : Nat) : List Char → Option (List Nat)
  | [] => some []
  | c :: rest =>
      if 0 < skip then decodeText template (skip - 1) rest
      else if c == '\\' then
        match escape? template rest with
        | some (codes, length) => (decodeText template length rest).map (codes ++ ·)
        | none => none
      else (decodeText template 0 rest).map (c.toNat :: ·)

/-- Four hexadecimal digits of a number below 65536. -/
def fourHex (n : Nat) : List Char :=
  let cs := Nat.toDigits 16 n
  List.replicate (4 - cs.length) '0' ++ cs

/-- Text with the given code points.  Text cannot hold half a surrogate pair: where one occurs,
it is written as the replacement character and four hexadecimal digits, and so is every
replacement character of that text. -/
def textOfCodes (codes : List Nat) : List Char :=
  if codes.any isHalf then
    codes.flatMap fun n =>
      if isHalf n || n == 0xfffd then Char.ofNat 0xfffd :: fourHex n else [Char.ofNat n]
  else codes.map Char.ofNat

/-- Raw characters of a string up to its closing quote, and what follows the quote. -/
def stringSpan (quote : Char) (skip : Nat) : List Char → Option (List Char × List Char)
  | [] => none
  | c :: rest =>
      let after (n : Nat) := (stringSpan quote n rest).map fun (raw, tail) => (c :: raw, tail)
      if 0 < skip then after (skip - 1)
      else if c == quote then some ([], rest)
      else if c == '\\' then
        match rest with
        | '\r' :: '\n' :: _ => after 2
        | _ => after 1
      else if c == '\n' || c == '\r' then none
      else after 0

/-- Raw characters of a template text, whether a backquote ends it, and what follows its end. -/
def templateSpan (skip : Nat) : List Char → Option (List Char × Bool × List Char)
  | [] => none
  | c :: rest =>
      let after (n : Nat) := (templateSpan n rest).map fun (raw, tail) => (c :: raw, tail)
      if 0 < skip then after (skip - 1)
      else if c == '\x60' then some ([], true, rest)
      else if c == '\\' then after 1
      else
        match c, rest with
        | '$', '\x7b' :: tail => some ([], false, tail)
        | _, _ => after 0

/-- Raw characters of a regular expression up to its closing slash, and what follows it. -/
def regexSpan (escaped bracketed : Bool) : List Char → Option (List Char × List Char)
  | [] => none
  | c :: rest =>
      let after (e b : Bool) := (regexSpan e b rest).map fun (raw, tail) => (c :: raw, tail)
      if isLineEnd c then none
      else if escaped then after false bracketed
      else if c == '/' && !bracketed then some ([], rest)
      else if c == '[' then after false true
      else if c == '\\' then after true bracketed
      else if c == ']' then after false false
      else after false bracketed

/-- Whether the characters are distinct flags of a regular expression. -/
def validFlags : List Char → Bool
  | [] => true
  | c :: rest => "gimsuydv".toList.contains c && !rest.contains c && validFlags rest

end Stencil.Script
