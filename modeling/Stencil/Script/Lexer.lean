import Stencil.Script.Literal
import Stencil.Text.Offset

/-!
# Reading one token

`gap` skips what stands between tokens and notes whether a line ends there, `scan` reads the token
that follows.  Both say how many bytes they took, so that a reader can keep its offset.  A slash is
read as an operator; `scanRegex` and `scanTemplate` read the two kinds of token that only the
grammar can tell to be there.
-/

namespace Stencil.Script

open Stencil.Decimal (Binary)
open Stencil.Text

/-- What a gap is made of at the moment.  The two middle states stand on the second character of
a comment's opening and closing mark. -/
inductive GapState where
  | blank | lineComment | openMark | blockComment | closeMark
  deriving DecidableEq

/-- A gap between tokens. -/
structure Gap where
  size : Nat
  newline : Bool
  /-- Whether every comment ends. -/
  closed : Bool
  rest : List Char

/-- The white space and comments at the start of a text. -/
def gap (state : GapState) (size : Nat) (newline : Bool) : List Char → Gap
  | [] => { size, newline, closed := state == .blank || state == .lineComment, rest := [] }
  | c :: rest =>
      let here := size + c.utf8Size
      match state with
      | .blank =>
          if isGap c then gap .blank here newline rest
          else if isLineEnd c then gap .blank here true rest
          else if c == '/' && rest.head? == some '/' then gap .lineComment here newline rest
          else if c == '/' && rest.head? == some '*' then gap .openMark here newline rest
          else { size, newline, closed := true, rest := c :: rest }
      | .lineComment =>
          if isLineEnd c then gap .blank here true rest else gap .lineComment here newline rest
      | .openMark => gap .blockComment here newline rest
      | .blockComment =>
          if c == '*' && rest.head? == some '/' then gap .closeMark here newline rest
          else gap .blockComment here (newline || isLineEnd c) rest
      | .closeMark => gap .blank here newline rest

/-- A token, the bytes it takes and what follows it. -/
structure Scan where
  token : Token
  size : Nat
  rest : List Char

/-- The digits at the start of a text without their separators, and how many characters they take.
A separator must stand between two digits. -/
def digitSpan (digit : Char → Bool) : List Char → Option (List Char × Nat × List Char)
  | [] => some ([], 0, [])
  | c :: rest =>
      if digit c then
        (digitSpan digit rest).map fun (digits, length, tail) => (c :: digits, length + 1, tail)
      else if c == '_' then
        match rest with
        | d :: _ =>
            if digit d then
              (digitSpan digit rest).map fun (digits, length, tail) => (digits, length + 1, tail)
            else none
        | [] => none
      else some ([], 0, c :: rest)

/-- Value of decimal digits. -/
def decimalValue (digits : List Char) : Nat :=
  digits.foldl (fun n c => n * 10 + (c.toNat - 48)) 0

/-- A number must not run into a digit or a word. -/
def numberScan (token : Token) (size : Nat) (rest : List Char) : Scan :=
  match rest with
  | c :: _ => if isDigit c || startsWord c then ⟨.broken, size, rest⟩ else ⟨token, size, rest⟩
  | [] => ⟨token, size, rest⟩

/-- Text that is no number. -/
def brokenScan (rest : List Char) : Scan := ⟨.broken, 0, rest⟩

/-- The optional exponent of a number: its value, its length and what follows. -/
def exponentSpan : List Char → Option (Int × Nat × List Char)
  | c :: rest =>
      if c == 'e' || c == 'E' then
        let (sign, signSize, digits) : Int × Nat × List Char :=
          match rest with
          | '+' :: tail => (1, 1, tail)
          | '-' :: tail => (-1, 1, tail)
          | _ => (1, 0, rest)
        match digitSpan isDigit digits with
        | some (ds, length, tail) =>
            if ds.isEmpty then none
            else some (sign * (decimalValue ds : Int), length + signSize + 1, tail)
        | none => none
      else some (0, 0, c :: rest)
  | [] => some (0, 0, [])

/-- The rest of a decimal number after its whole digits. -/
def decimalRest (whole : List Char) (size : Nat) (rest : List Char) : Scan :=
  match rest with
  | '.' :: tail =>
      match digitSpan isDigit (if tail.head?.any isDigit then tail else []) with
      | none => brokenScan tail
      | some (fraction, length, _) =>
          match exponentSpan (tail.drop length) with
          | none => brokenScan tail
          | some (power, exponentSize, after) =>
              let value := decimalValue (whole ++ fraction)
              numberScan (.number (Binary.ofDecimal value (power - fraction.length)))
                (size + 1 + length + exponentSize) after
  | 'n' :: tail => numberScan .bigint (size + 1) tail
  | _ =>
      match exponentSpan rest with
      | none => brokenScan rest
      | some (power, exponentSize, after) =>
          numberScan (.number (Binary.ofDecimal (decimalValue whole) power))
            (size + exponentSize) after

/-- Value of digits in a base: rounded once if they are few, else digit by digit. -/
def radixValue (base limit : Nat) (digits : List Char) : Binary :=
  let values := digits.map fun c => (hexDigit? c).getD 0
  if digits.length ≤ limit then Binary.ofRatio (values.foldl (· * base + ·) 0) 1
  else Binary.ofDigits base values

/-- A number in another base, read after its two-character mark. -/
def radixScan (base limit : Nat) (rest : List Char) : Scan :=
  let digit (c : Char) : Bool := (hexDigit? c).any (· < base)
  if rest.head?.any digit then
    match digitSpan digit rest with
    | none => brokenScan rest
    | some (digits, length, 'n' :: tail) =>
        numberScan (if digits.isEmpty then .broken else .bigint) (length + 3) tail
    | some (digits, length, tail) =>
        numberScan (.number (radixValue base limit digits)) (length + 2) tail
  else brokenScan rest

/-- A number that starts with a zero and another digit: octal unless a digit exceeds seven. -/
def legacyScan (cs : List Char) : Scan :=
  let digits := cs.takeWhile isDigit
  let rest := cs.drop digits.length
  if digits.all fun c => (octalDigit? c).isSome then
    numberScan (.number (radixValue 8 22 digits)) digits.length rest
  else
    match rest with
    | 'n' :: _ => brokenScan rest
    | 'E' :: _ => brokenScan rest
    | _ => decimalRest digits digits.length rest

/-- The number at the start of a text whose first character is a digit. -/
def scanNumber (cs : List Char) : Scan :=
  match cs with
  | '0' :: c :: rest =>
      if c == 'x' || c == 'X' then radixScan 16 16 rest
      else if c == 'o' || c == 'O' then radixScan 8 21 rest
      else if c == 'b' || c == 'B' then radixScan 2 64 rest
      else if isDigit c then legacyScan cs
      else decimalRest ['0'] 1 (c :: rest)
  | _ =>
      match digitSpan isDigit cs with
      | none => brokenScan cs
      | some (whole, length, rest) => decimalRest whole length rest

/-- The punctuation mark that a character and what follows it start, and its length. -/
def markAt (c : Char) (rest : List Char) : Option String :=
  match c with
  | '=' =>
      match rest with
      | '=' :: '=' :: _ => some "==="
      | '=' :: _ => some "=="
      | '>' :: _ => some "=>"
      | _ => some "="
  | '!' =>
      match rest with
      | '=' :: '=' :: _ => some "!=="
      | '=' :: _ => some "!="
      | _ => some "!"
  | '<' =>
      match rest with
      | '<' :: '=' :: _ => some "<<="
      | '<' :: _ => some "<<"
      | '=' :: _ => some "<="
      | _ => some "<"
  | '+' => match rest with | '+' :: _ => some "++" | '=' :: _ => some "+=" | _ => some "+"
  | '-' => match rest with | '-' :: _ => some "--" | '=' :: _ => some "-=" | _ => some "-"
  | '*' =>
      match rest with
      | '*' :: '=' :: _ => some "**="
      | '*' :: _ => some "**"
      | '=' :: _ => some "*="
      | _ => some "*"
  | '&' =>
      match rest with
      | '&' :: '=' :: _ => some "&&="
      | '&' :: _ => some "&&"
      | '=' :: _ => some "&="
      | _ => some "&"
  | '|' =>
      match rest with
      | '|' :: '=' :: _ => some "||="
      | '|' :: _ => some "||"
      | '=' :: _ => some "|="
      | _ => some "|"
  | '?' =>
      match rest with
      | '?' :: '=' :: _ => some "??="
      | '?' :: _ => some "??"
      | '.' :: d :: _ => if isDigit d then some "?" else some "?."
      | '.' :: _ => some "?."
      | _ => some "?"
  | '.' => match rest with | '.' :: '.' :: _ => some "..." | _ => some "."
  | '/' => match rest with | '=' :: _ => some "/=" | _ => some "/"
  | '%' => match rest with | '=' :: _ => some "%=" | _ => some "%"
  | '^' => match rest with | '=' :: _ => some "^=" | _ => some "^"
  | '\x7b' => some "\x7b"
  | '\x7d' => some "\x7d"
  | '(' => some "("
  | ')' => some ")"
  | '[' => some "["
  | ']' => some "]"
  | ';' => some ";"
  | ',' => some ","
  | '>' => some ">"
  | '~' => some "~"
  | ':' => some ":"
  | '@' => some "@"
  | _ => none

/-- The template text that starts after a backquote or after the closing brace of a hole. -/
def scanTemplate (opening : Nat) (cs : List Char) : Scan :=
  match templateSpan 0 cs with
  | none => brokenScan []
  | some (raw, last, rest) =>
      ⟨.template last (decodeText true 0 raw).isSome,
        opening + byteSize raw + (if last then 1 else 2), rest⟩

/-- The word at the start of a text. -/
def scanWord (cs : List Char) : Scan :=
  let (raw, rest) := wordSpan 0 cs
  match decodeWord 0 true raw with
  | some name => ⟨.word (String.ofList name) (raw.contains '\\'), byteSize raw, rest⟩
  | none => ⟨.broken, byteSize raw, rest⟩

/-- The token at the start of a text that has no gap there. -/
def scan (cs : List Char) : Scan :=
  match cs with
  | [] => ⟨.eof, 0, []⟩
  | c :: rest =>
      if startsWord c || c == '\\' then scanWord cs
      else if isDigit c || (c == '.' && rest.head?.any isDigit) then
        if c == '.' then decimalRest [] 0 cs else scanNumber cs
      else if c == '"' || c == '\'' then
        match stringSpan c 0 rest with
        | none => brokenScan []
        | some (raw, tail) =>
            match decodeText false 0 raw with
            | some codes =>
                ⟨.string (String.ofList (textOfCodes codes)), byteSize raw + 2, tail⟩
            | none => ⟨.broken, byteSize raw + 2, tail⟩
      else if c == '\x60' then scanTemplate 1 rest
      else if c == '#' then
        match scanWord rest with
        | ⟨.word name _, size, tail⟩ =>
            if size = 0 then ⟨.broken, 1, rest⟩ else ⟨.hash name, size + 1, tail⟩
        | _ => ⟨.broken, 1, rest⟩
      else
        match markAt c rest with
        | some mark => ⟨.mark mark, mark.length, cs.drop mark.length⟩
        | none => ⟨.broken, c.utf8Size, rest⟩

/-- The regular expression at the start of a text, which starts with a slash. -/
def scanRegex (cs : List Char) : Scan :=
  match regexSpan false false (cs.drop 1) with
  | none => brokenScan []
  | some (raw, rest) =>
      let flags := rest.takeWhile isNamePart
      ⟨if validFlags flags then .regex else .broken, byteSize raw + 2 + flags.length,
        rest.drop flags.length⟩

end Stencil.Script
