import Stencil.Text.Chars

/-!
# JSON texts

A reader that keeps what other readers throw away: the fields of an object in order with
repetitions, and numbers as they are written.  A string whose escapes leave half of a surrogate
pair is no text; it is kept as such, since it only matters where the text is asked for.
-/

namespace Stencil

open Stencil.Text

/-- A JSON value. -/
inductive Json where
  | null
  | bool (value : Bool)
  /-- A number as it is written. -/
  | number (text : String)
  /-- A string; `none` if its escapes denote no text. -/
  | string (text : Option String)
  | array (elements : List Json)
  | object (fields : List (Option String × Json))
  deriving Repr

namespace Json

/-- The rest of a text after its blanks. -/
def skipBlanks (cs : List Char) : List Char :=
  cs.dropWhile fun c => c == ' ' || c == '\t' || c == '\n' || c == '\r'

/-- The value of a hexadecimal digit. -/
def hexDigit? (c : Char) : Option Nat :=
  if isDigit c then some (c.toNat - 48)
  else if 'a' ≤ c && c ≤ 'f' then some (c.toNat - 87)
  else if 'A' ≤ c && c ≤ 'F' then some (c.toNat - 55)
  else none

/-- The value of four hexadecimal digits at the start of a text. -/
def hexFour? : List Char → Option Nat
  | a :: b :: c :: d :: _ => do
      let a ← hexDigit? a
      let b ← hexDigit? b
      let c ← hexDigit? c
      let d ← hexDigit? d
      pure (((a * 16 + b) * 16 + c) * 16 + d)
  | _ => none

/-- The character of an escape with one letter. -/
def plainEscape? : Char → Option Char
  | '"' => some '"'
  | '\\' => some '\\'
  | '/' => some '/'
  | 'b' => some '\x08'
  | 'f' => some '\x0c'
  | 'n' => some '\n'
  | 'r' => some '\r'
  | 't' => some '\t'
  | _ => none

/-- Numbers of UTF-16 units in a string up to its closing quote, and what follows the quote. -/
def units? (skip : Nat) : List Char → Option (List Nat × List Char)
  | [] => none
  | c :: rest =>
      if 0 < skip then units? (skip - 1) rest
      else if c == '"' then some ([], rest)
      else if c.toNat < 0x20 then none
      else if c == '\\' then
        match rest with
        | [] => none
        | e :: digits =>
            if e == 'u' then
              match hexFour? digits with
              | some n => (units? 5 rest).map fun (ns, tail) => (n :: ns, tail)
              | none => none
            else
              match plainEscape? e with
              | some d => (units? 1 rest).map fun (ns, tail) => (d.toNat :: ns, tail)
              | none => none
      else (units? 0 rest).map fun (ns, tail) => (c.toNat :: ns, tail)

/-- The text of some units and code points, if no half of a surrogate pair stands alone. -/
def textOfUnits? : List Nat → Option (List Char)
  | [] => some []
  | [n] => if 0xd800 ≤ n ∧ n < 0xe000 then none else some [Char.ofNat n]
  | n :: m :: rest =>
      if 0xd800 ≤ n ∧ n < 0xdc00 then
        if 0xdc00 ≤ m ∧ m < 0xe000 then
          (textOfUnits? rest).map (Char.ofNat (0x10000 + (n - 0xd800) * 0x400 + (m - 0xdc00)) :: ·)
        else none
      else if 0xdc00 ≤ n ∧ n < 0xe000 then none
      else (textOfUnits? (m :: rest)).map (Char.ofNat n :: ·)

/-- A string, after its opening quote. -/
def string? (cs : List Char) : Option (Option String × List Char) :=
  (units? 0 cs).map fun (ns, rest) => ((textOfUnits? ns).map String.ofList, rest)

/-- Digits at the start of a text, at least one, and what follows. -/
def digits? (cs : List Char) : Option (List Char × List Char) :=
  match cs.takeWhile isDigit with
  | [] => none
  | ds => some (ds, cs.dropWhile isDigit)

/-- A number without its sign. -/
def unsigned? (cs : List Char) : Option (List Char × List Char) := do
  let (whole, rest) ← digits? cs
  if whole.head? == some '0' && 1 < whole.length then none
  let (fraction, rest) ← match rest with
    | '.' :: tail => (digits? tail).map fun (ds, r) => ('.' :: ds, r)
    | _ => some ([], rest)
  let (power, rest) ← match rest with
    | e :: tail =>
        if e == 'e' || e == 'E' then
          match tail with
          | s :: more =>
              if s == '+' || s == '-' then (digits? more).map fun (ds, r) => (e :: s :: ds, r)
              else (digits? tail).map fun (ds, r) => (e :: ds, r)
          | [] => none
        else some ([], rest)
    | [] => some ([], [])
  pure (whole ++ fraction ++ power, rest)

/-- A number. -/
def number? : List Char → Option (String × List Char)
  | '-' :: rest => (unsigned? rest).map fun (ds, r) => (String.ofList ('-' :: ds), r)
  | cs => (unsigned? cs).map fun (ds, r) => (String.ofList ds, r)

/-- The rest of a text after a word it must start with. -/
def word? (word : String) (cs : List Char) : Option (List Char) :=
  if word.toList.isPrefixOf cs then some (cs.drop word.length) else none

/-- A key with its colon, and what follows. -/
def key? (cs : List Char) : Option (Option String × List Char) :=
  match skipBlanks cs with
  | '"' :: rest => do
      let (key, rest) ← string? rest
      match skipBlanks rest with
      | ':' :: rest => some (key, rest)
      | _ => none
  | _ => none

mutual

/-- A value at the start of a text.  Every step reads a character, so the length of the text bounds
their number. -/
def value? : Nat → List Char → Option (Json × List Char)
  | 0, _ => none
  | fuel + 1, cs =>
      match skipBlanks cs with
      | 'n' :: rest => (word? "ull" rest).map (Json.null, ·)
      | 't' :: rest => (word? "rue" rest).map (Json.bool true, ·)
      | 'f' :: rest => (word? "alse" rest).map (Json.bool false, ·)
      | '"' :: rest => (string? rest).map fun (text, r) => (.string text, r)
      | '[' :: rest =>
          match skipBlanks rest with
          | ']' :: rest => some (.array [], rest)
          | rest => (elements? fuel rest).map fun (vs, r) => (.array vs, r)
      | '\x7b' :: rest =>
          match skipBlanks rest with
          | '\x7d' :: rest => some (.object [], rest)
          | rest => (fields? fuel rest).map fun (fs, r) => (.object fs, r)
      | cs => (number? cs).map fun (text, r) => (.number text, r)

/-- Values separated by commas up to a closing bracket. -/
def elements? : Nat → List Char → Option (List Json × List Char)
  | 0, _ => none
  | fuel + 1, cs => do
      let (v, rest) ← value? fuel cs
      match skipBlanks rest with
      | ',' :: rest => (elements? fuel rest).map fun (vs, r) => (v :: vs, r)
      | ']' :: rest => some ([v], rest)
      | _ => none

/-- Fields separated by commas up to a closing brace. -/
def fields? : Nat → List Char → Option (List (Option String × Json) × List Char)
  | 0, _ => none
  | fuel + 1, cs => do
      let (key, rest) ← key? cs
      let (v, rest) ← value? fuel rest
      match skipBlanks rest with
      | ',' :: rest => (fields? fuel rest).map fun (fs, r) => ((key, v) :: fs, r)
      | '\x7d' :: rest => some ([(key, v)], rest)
      | _ => none

end

/-- The value that a whole text denotes. -/
def parse? (text : String) : Option Json :=
  let cs := text.toList
  match value? (2 * cs.length + 2) cs with
  | some (v, rest) => if (skipBlanks rest).isEmpty then some v else none
  | none => none

/-- The first value of a field of an object. -/
def field? (name : String) : Json → Option Json
  | .object fields => (fields.find? fun f => f.1 == some name).map Prod.snd
  | _ => none

end Json

end Stencil
