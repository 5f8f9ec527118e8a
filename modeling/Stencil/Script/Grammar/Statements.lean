import Stencil.Script.Grammar.Expressions

/-!
# Statements

Blocks, variables, control flow and expression statements, with semicolons left out where a line
or a block ends.  Declarations that only the typed dialect has are in the next module but one.
-/

namespace Stencil.Script.Grammar

open Reader

/-- Statements in braces. -/
def block (self : Grammar) : Reader Node := do
  .block <$> within (fun m => { m with allowsIn := true }) (bracedBody self)

/-- Notes a fault if a declarator lacks a value it must have. -/
def checkInitialized (kind : VariableKind) (pattern value : Node) : Reader Unit := do
  let m ← mode
  match value with
  | .absent =>
      if m.ambient then return
      match pattern with
      | .bind _ | .typed (.bind _) _ => faultIf (kind == .constant || kind == .resource)
      | _ => fault
  | _ => pure ()

/-- One declarator: a pattern, with a type where there are types, and an initial value. -/
def declarator (self : Grammar) : Reader Node := do
  let p ← self .pattern
  if (← mode).typescript then
    if !(← onNewLine) then
      match p with
      | .bind _ =>
          let _ ← eatMark "!"
          pure ()
      | _ => pure ()
    if ← eatMark "?" then fault
  let type ← annotation self
  let value ← if ← eatMark "=" then self (.assignment true) else pure .absent
  pure (.declarator (withType p type) value)

/-- Notes a fault if one of the declarators lacks a value. -/
def checkAllInitialized (kind : VariableKind) : List Node → Reader Unit
  | [] => pure ()
  | .declarator p v :: rest => do
      checkInitialized kind p v
      checkAllInitialized kind rest
  | _ :: rest => checkAllInitialized kind rest

/-- Declarators separated by commas. -/
def declarators (self : Grammar) : Reader (List Node) := commaSeparated (declarator self)

/-- A variable statement, after its first word. -/
def variableRest (self : Grammar) (kind : VariableKind) : Reader Node := do
  let ds ← declarators self
  checkAllInitialized kind ds
  endStatement
  pure (.variables kind ds)

/-- An expression as a statement. -/
def endExpression (e : Node) : Reader Node := do
  endStatement
  pure (.perform e)

/-- Whether the word `let` here is a name and not a declaration. -/
def letIsName (nesting : Nesting) : Reader Bool := do
  let m ← mode
  let n := (← cursor).next
  pure (match n.token with
    | .mark t =>
        assignMarks.contains t || (operatorPrecedence m n.token).isSome || t == "." || t == "(" ||
          t == ";" || (nesting == .body && t != "[")
    | .word w _ => w == "in" || w == "instanceof" || nesting == .body
    | _ => nesting == .body)

/-- A statement that starts with `let`. -/
def letStatement (self : Grammar) (nesting : Nesting) : Reader Node := do
  if ← letIsName nesting then
    let e ← expression self
    endExpression e
  else
    advance
    faultIf (nesting == .body)
    variableRest self .mutable

/-- An expression statement, or a statement with a label. -/
def expressionOrLabelled (self : Grammar) : Reader Node := do
  let e ← expression self
  match e with
  | .ident _ =>
      if ← eatMark ":" then return .labelled (← self (.statement .body))
      endExpression e
  | _ => endExpression e

/-- An expression in parentheses, after a keyword. -/
def condition (self : Grammar) : Reader Node := do
  expectMark "("
  let e ← within (fun m => { m with allowsIn := true }) (expression self)
  expectMark ")"
  pure e

/-- An `if` statement. -/
def ifStatement (self : Grammar) : Reader Node := do
  expectWord "if"
  let test ← condition self
  let yes ← self (.statement .body)
  let no ← if ← eatWord "else" then self (.statement .body) else pure .absent
  pure (.choice test yes no)

/-- A `do` statement. -/
def doStatement (self : Grammar) : Reader Node := do
  expectWord "do"
  let body ← self (.statement .body)
  expectWord "while"
  let test ← condition self
  let _ ← eatMark ";"
  pure (.repeat body test)

/-- A `while` or `with` statement. -/
def headedStatement (self : Grammar) (word : String) : Reader Node := do
  expectWord word
  let test ← condition self
  let body ← self (.statement .body)
  pure (.repeat test body)

/-- The rest of a counting loop, from its first semicolon on. -/
def countRest (self : Grammar) (start : Node) : Reader Node := do
  expectMark ";"
  let test ← if ← atMark ";" then pure .absent else expression self
  expectMark ";"
  let step ← if ← atMark ")" then pure .absent else expression self
  expectMark ")"
  let body ← self (.statement .body)
  pure (.count start test step body)

/-- The rest of a loop over items or keys, from `of` or `in` on. -/
def eachRest (self : Grammar) (waits : Bool) (left : Node) : Reader Node := do
  let right ← if ← eatWord "in" then
      faultIf waits
      expression self
    else
      expectWord "of"
      self (.assignment true)
  expectMark ")"
  let body ← self (.statement .body)
  pure (.each left right body)

/-- The kind of variable that the head of a loop declares, if it declares any. -/
def loopVariableKind? : Reader (Option VariableKind) := do
  let c ← cursor
  let n := c.next
  match c.token with
  | .word "var" _ => pure (some .hoisted)
  | .word "const" _ => pure (some .constant)
  | .word "let" false =>
      pure (match n.token with
        | .mark t => if t == "[" || t == "\x7b" then some .mutable else none
        | .word w _ => if isReserved w then none else some .mutable
        | _ => none)
  | .word "using" false =>
      pure (if n.isIdentifier && !n.newline && !n.isTheWord "of" then some .resource else none)
  | _ => pure none

/-- A `for` statement. -/
def forStatement (self : Grammar) : Reader Node := do
  expectWord "for"
  let m ← mode
  let waits ← eatWord "await"
  faultIf (waits && !m.awaits)
  expectMark "("
  let open_ := within (α := Node) fun m => { m with allowsIn := true }
  let closed {α : Type} := within (α := α) fun m => { m with allowsIn := false }
  if ← atMark ";" then
    faultIf waits
    return ← open_ (countRest self .absent)
  match ← loopVariableKind? with
  | some kind =>
      advance
      let ds ← closed (declarators self)
      if ← atWords ["in", "of"] then open_ (eachRest self waits (.variables kind ds))
      else
        faultIf waits
        checkAllInitialized kind ds
        open_ (countRest self (.variables kind ds))
  | none =>
      let c ← cursor
      let e ← closed (expression self)
      if ← atWords ["in", "of"] then
        let left ← target e
        faultIf (c.isTheWord "let")
        let plainAsync := match e with | .ident n => n == "async" | _ => false
        faultIf (plainAsync && !waits && (← atWord "of"))
        open_ (eachRest self waits left)
      else
        faultIf waits
        open_ (countRest self e)

/-- A `break` or `continue` statement. -/
def breakStatement : Reader Node := do
  advance
  if !(← atStatementEnd) then
    let _ ← identifier
  endStatement
  pure .empty

/-- A `return` statement. -/
def returnStatement (self : Grammar) : Reader Node := do
  expectWord "return"
  faultIf !(← mode).returns
  let value ← if ← atStatementEnd then pure .absent else expression self
  endStatement
  pure (.jump value)

/-- A `throw` statement, whose value must start on the same line. -/
def throwStatement (self : Grammar) : Reader Node := do
  expectWord "throw"
  faultIf (← onNewLine)
  let value ← expression self
  endStatement
  pure (.jump value)

/-- A clause of a `switch` statement. -/
def switchCase (self : Grammar) : Reader Node := do
  let test ← if ← eatWord "default" then pure .absent
    else
      expectWord "case"
      expression self
  expectMark ":"
  let body ← loop (fun (acc : List Node) => do
    if (← atMark "\x7d") || (← atWords ["case", "default"]) then return .inr acc.reverse
    let s ← self (.statement .list)
    return .inl (s :: acc)) []
  pure (.case test body)

/-- A `switch` statement. -/
def switchStatement (self : Grammar) : Reader Node := do
  expectWord "switch"
  let subject ← condition self
  expectMark "\x7b"
  let cases ← loop (fun (acc : List Node) => do
    if ← atMark "\x7d" then return .inr acc.reverse
    let c ← switchCase self
    return .inl (c :: acc)) []
  expectMark "\x7d"
  pure (.switch subject cases)

/-- A `try` statement. -/
def tryStatement (self : Grammar) : Reader Node := do
  expectWord "try"
  let body ← block self
  let handler : Node ← if ← eatWord "catch" then
      let p : Node ← if ← eatMark "(" then
          let p ← self .pattern
          let type ← annotation self
          expectMark ")"
          pure (withType p type)
        else pure .absent
      pure (.handler p (← bracedBody self))
    else pure .absent
  let final : Node ← if ← eatWord "finally" then block self else pure .absent
  match handler, final with
  | .absent, .absent => fail
  | _, _ => pure (.guarded body handler final)

/-- A class as a statement. -/
def classStatement (self : Grammar) (nesting : Nesting) (ds : List Node) : Reader Node := do
  faultIf (nesting == .body)
  classRest self true ds

/-- A function as a statement. -/
def functionStatement (self : Grammar) (nesting : Nesting) (async : Bool) : Reader Node := do
  let (f, generator) ← functionDeclaration self async false
  faultIf (nesting == .body && (async || generator))
  pure f

/-- A statement that both dialects have, modules' imports and exports apart. -/
def plainStatement (self : Grammar) (nesting : Nesting) : Reader Node := do
  let c ← cursor
  match c.token with
  | .mark "\x7b" => block self
  | .mark ";" => advance; pure .empty
  | .mark "@" =>
      let ds ← decorators self
      classStatement self nesting ds
  | .word w escaped =>
      match w with
      | "if" => ifStatement self
      | "do" => doStatement self
      | "while" | "with" => headedStatement self w
      | "for" => forStatement self
      | "break" | "continue" => breakStatement
      | "switch" => switchStatement self
      | "throw" => throwStatement self
      | "try" => tryStatement self
      | "debugger" => expectWord w; endStatement; pure .empty
      | "class" => classStatement self nesting []
      | "return" => returnStatement self
      | "var" => expectWord w; variableRest self .hoisted
      | "const" =>
          expectWord w
          faultIf (nesting == .body)
          variableRest self .constant
      | "function" => functionStatement self nesting false
      | "let" => if escaped then expressionOrLabelled self else letStatement self nesting
      | "async" =>
          if ← atAsyncFunction then
            advance
            functionStatement self nesting true
          else expressionOrLabelled self
      | "using" =>
          if c.next.isIdentifier && !c.next.newline then
            advance
            variableRest self .resource
          else expressionOrLabelled self
      | "await" =>
          let n := c.next
          if n.isTheWord "using" && !n.newline && n.next.isIdentifier && !n.next.newline then
            advance
            advance
            variableRest self .resource
          else expressionOrLabelled self
      | _ => expressionOrLabelled self
  | _ => expressionOrLabelled self

end Stencil.Script.Grammar
