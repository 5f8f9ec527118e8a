import Stencil.Script.Lexer
import Stencil.Script.Tree

/-!
# Readers

A reader looks at one token at a time.  `Cursor` holds that token, the text after it and what the
grammar has to remember; `Mode` holds what the place in the grammar allows.  A reader either fails,
which makes it possible to try another reading of the same text, or goes on; a fault that does not
stop it is kept in the cursor and refuses the whole text at the end.

Recursion goes through `Goal`: a reader of the grammar is a function of the reader for all goals,
and the knot is tied with a bound on the depth.
-/

namespace Stencil.Script

/-- What the place in the grammar allows. -/
structure Mode where
  typescript : Bool := false
  /-- `in` is an operator here. -/
  allowsIn : Bool := true
  /-- Inside a generator. -/
  yields : Bool := false
  /-- `await` waits here. -/
  awaits : Bool := true
  /-- Inside a function body. -/
  returns : Bool := false
  /-- Inside a declaration without code. -/
  ambient : Bool := false
  /-- Inside a decorator, where a bracket starts the next class member. -/
  decorator : Bool := false
  /-- After `extends` in a conditional type, where a further one needs parentheses. -/
  plainExtends : Bool := false
  /-- Number of bytes of the text. -/
  size : Nat := 0

/-- Where a reader stands. -/
structure Cursor where
  token : Token
  /-- Offset of the first byte of the token. -/
  start : Nat
  /-- Offset just after the token. -/
  stop : Nat
  /-- Whether a line ends between the token and the one before it. -/
  newline : Bool
  /-- The text from the token on. -/
  here : List Char
  /-- The text after the token. -/
  rest : List Char
  /-- Offset just after the previous token. -/
  last : Nat
  /-- Whether no fault was met. -/
  sound : Bool := true
  /-- Starts of the shorthand defaults that no pattern has claimed yet. -/
  pending : List Nat := []

/-- The cursor on the token after a gap. -/
def Cursor.next (c : Cursor) : Cursor :=
  let g := gap .blank 0 false c.rest
  let s := scan g.rest
  let start := c.stop + g.size
  if g.closed then
    { c with token := s.token, start, stop := start + s.size, newline := g.newline, here := g.rest
             rest := s.rest, last := c.stop }
  else
    { c with token := .broken, start, stop := start, newline := g.newline, here := [], rest := []
             last := c.stop }

/-- The cursor on the first token of a text. -/
def Cursor.first (text : List Char) : Cursor :=
  Cursor.next { token := .eof, start := 0, stop := 0, newline := false, here := text, rest := text
                last := 0 }

/-- Whether the cursor is on this mark. -/
def Cursor.isMark (text : String) (c : Cursor) : Bool := c.token == .mark text

/-- Whether the cursor is on a word. -/
def Cursor.isWord (c : Cursor) : Bool := match c.token with | .word _ _ => true | _ => false

/-- Whether the cursor is on this word. -/
def Cursor.isTheWord (name : String) (c : Cursor) : Bool :=
  match c.token with | .word n _ => n == name | _ => false

/-- Whether the cursor is on a word that may be an identifier. -/
def Cursor.isIdentifier (c : Cursor) : Bool :=
  match c.token with | .word n _ => !(isReserved n) | _ => false

/-- A reader of some part of the grammar. -/
def Reader (α : Type) := Mode → Cursor → Option (α × Cursor)

namespace Reader

variable {α β : Type}

instance : Monad Reader where
  pure a := fun _ c => some (a, c)
  bind p f := fun m c =>
    match p m c with
    | some (a, c') => f a m c'
    | none => none

/-- The reading that never succeeds. -/
def fail : Reader α := fun _ _ => none

/-- The mode of this place. -/
def mode : Reader Mode := fun m c => some (m, c)

/-- The cursor of this place. -/
def cursor : Reader Cursor := fun _ c => some (c, c)

/-- Reads in a changed mode. -/
def within (change : Mode → Mode) (p : Reader α) : Reader α := fun m c => p (change m) c

/-- A reading that is tried and taken back if it fails. -/
def attempt (p : Reader α) : Reader (Option α) := fun m c =>
  match p m c with
  | some (a, c') => some (some a, c')
  | none => some (none, c)

/-- What a reader would give from here, without moving; `none` if it fails. -/
def ahead (p : Reader α) : Reader (Option α) := fun m c =>
  some ((p m c).map Prod.fst, c)

/-- Whether the token after this one satisfies a test. -/
def nextIs (test : Cursor → Bool) : Reader Bool := fun _ c => some (test c.next, c)

/-- Notes a fault and goes on. -/
def fault : Reader Unit := fun _ c => some ((), { c with sound := false })

/-- Notes a fault if the condition holds. -/
def faultIf (condition : Bool) : Reader Unit := if condition then fault else pure ()

/-- Moves to the next token. -/
def advance : Reader Unit := fun _ c => some ((), c.next)

/-- The token of this place. -/
def token : Reader Token := fun _ c => some (c.token, c)

/-- Whether a line ends before this token. -/
def onNewLine : Reader Bool := fun _ c => some (c.newline, c)

/-- Whether the token is this mark. -/
def atMark (text : String) : Reader Bool := fun _ c => some (c.token == .mark text, c)

/-- Whether the token is this word. -/
def atWord (name : String) : Reader Bool := fun _ c =>
  some ((match c.token with | .word n _ => n == name | _ => false), c)

/-- Whether the token is one of these words. -/
def atWords (names : List String) : Reader Bool := fun _ c =>
  some ((match c.token with | .word n _ => names.contains n | _ => false), c)

/-- Moves over this mark if it is here. -/
def eatMark (text : String) : Reader Bool := fun _ c =>
  if c.token == .mark text then some (true, c.next) else some (false, c)

/-- Moves over this word if it is here; a keyword must not be written with an escape. -/
def eatWord (name : String) : Reader Bool := fun _ c =>
  match c.token with
  | .word n escaped =>
      if n == name then some (true, { c.next with sound := c.sound && !escaped }) else some (false, c)
  | _ => some (false, c)

/-- Moves over this mark, which must be here. -/
def expectMark (text : String) : Reader Unit := fun _ c =>
  if c.token == .mark text then some ((), c.next) else none

/-- Moves over this word, which must be here. -/
def expectWord (name : String) : Reader Unit := do
  if ← eatWord name then pure () else fail

/-- Repeats a step on a state until it gives a result.  Every step that goes on reads at least one
byte, so the number of bytes bounds the number of steps. -/
def repeatFor {σ : Type} (step : σ → Reader (σ ⊕ β)) : Nat → σ → Reader β
  | 0, _ => fail
  | n + 1, s => do
      match ← step s with
      | .inl s' => repeatFor step n s'
      | .inr b => pure b

/-- Repeats a step on a state until it gives a result. -/
def loop {σ : Type} (step : σ → Reader (σ ⊕ β)) (s : σ) : Reader β := fun m c =>
  repeatFor step (m.size + 2 - c.start) s m c

/-- Items up to a closing mark, separated by commas; also whether a comma follows the last. -/
def listUntil (close : String) (item : Reader α) : Reader (List α × Bool) :=
  loop (fun (acc : List α × Bool) => do
    if ← atMark close then return .inr (acc.1.reverse, acc.2)
    let a ← item
    if ← eatMark "," then return .inl (a :: acc.1, true)
    if ← atMark close then return .inr ((a :: acc.1).reverse, false)
    fail) ([], false)

/-- One or more items separated by commas. -/
def commaSeparated (item : Reader α) : Reader (List α) := do
  let first ← item
  loop (fun (acc : List α) => do
    if ← eatMark "," then
      let a ← item
      return .inl (a :: acc)
    else return .inr acc.reverse) [first]

/-- Reads the slash of this place as the start of a regular expression. -/
def reReadRegex : Reader Unit := fun _ c =>
  let s := scanRegex c.here
  some ((), { c with token := s.token, stop := c.start + s.size, rest := s.rest })

/-- Reads the closing brace of this place as the start of further template text. -/
def reReadTemplate : Reader Unit := fun _ c =>
  let s := scanTemplate 1 (c.here.drop 1)
  some ((), { c with token := s.token, stop := c.start + s.size, rest := s.rest })

/-- Reads the first angle of a shift mark of this place as a mark of its own. -/
def reReadOpenAngle : Reader Unit := fun _ c =>
  match c.token with
  | .mark "<<" | .mark "<<=" | .mark "<=" =>
      some ((), { c with token := .mark "<", stop := c.start + 1, rest := c.here.drop 1 })
  | _ => some ((), c)

/-- The longest operator that a closing angle starts, with its length. -/
def closeAngleMark : List Char → String
  | '>' :: '>' :: '>' :: '=' :: _ => ">>>="
  | '>' :: '>' :: '>' :: _ => ">>>"
  | '>' :: '>' :: '=' :: _ => ">>="
  | '>' :: '>' :: _ => ">>"
  | '>' :: '=' :: _ => ">="
  | _ => ">"

/-- Reads a closing angle of this place together with the angles and the equals sign after it. -/
def reReadCloseAngle : Reader Unit := fun _ c =>
  if c.token == .mark ">" then
    let mark := closeAngleMark c.here
    some ((), { c with token := .mark mark, stop := c.start + mark.length
                       rest := c.here.drop mark.length })
  else some ((), c)

/-- Ends a statement: at a semicolon, which is read, or where one may be left out. -/
def endStatement : Reader Unit := fun _ c =>
  if c.token == .mark ";" then some ((), c.next)
  else if c.token == .mark "\x7d" || c.token == .eof || c.newline then some ((), c)
  else none

/-- Whether a statement may end here. -/
def atStatementEnd : Reader Bool := fun _ c =>
  some (c.token == .mark ";" || c.token == .mark "\x7d" || c.token == .eof || c.newline, c)

end Reader

/-- How a statement is nested: in a list, or alone as the body of another one. -/
inductive Nesting where
  | list | body
  deriving DecidableEq, Repr

/-- The parts of the grammar that refer to each other. -/
inductive Goal where
  /-- An expression above the comma; the flag allows an arrow function to state its result type. -/
  | assignment (resultType : Bool)
  /-- An expression of operators above the given precedence. -/
  | binary (precedence : Nat)
  /-- An expression with a unary operator, or a tighter one. -/
  | unary
  /-- A word, literal, bracketed expression, function or class. -/
  | primary
  | statement (nesting : Nesting)
  /-- A pattern that binds names. -/
  | pattern
  | type
  /-- A type with operators before it, or a tighter one. -/
  | typeOperand

/-- Readers for all goals. -/
abbrev Grammar := Goal → Reader Node

/-- Ties the knot: goals are read with goals of smaller depth. -/
def Grammar.tie (rules : Grammar → Grammar) : Nat → Grammar
  | 0 => fun _ => Reader.fail
  | depth + 1 => rules (Grammar.tie rules depth)

end Stencil.Script
