import Stencil.Script.Grammar.Functions
import Stencil.Script.Grammar.Targets

/-!
# Expressions

From the loosest to the tightest: sequences, assignments and arrow functions, conditionals, binary
operators by precedence, unary operators, member accesses and calls, and primary expressions.
-/

namespace Stencil.Script.Grammar

open Reader

/-- A mode in which `in` is an operator. -/
def Mode.open (m : Mode) : Mode := { m with allowsIn := true, decorator := false }

/-- Expressions separated by commas. -/
def expression (self : Grammar) : Reader Node := do
  match ← commaSeparated (self (.assignment true)) with
  | [e] => pure e
  | es => pure (.sequence es)

/-- An argument or element, possibly after three dots. -/
def spreadable (self : Grammar) : Reader Node := do
  if ← eatMark "..." then .spread <$> self (.assignment true) else self (.assignment true)

/-- The arguments of a call in parentheses. -/
def arguments (self : Grammar) : Reader (List Node) := do
  expectMark "("
  let (args, _) ← within Mode.open (listUntil ")" (spreadable self))
  expectMark ")"
  pure args

/-- An element of an array, which may be left out. -/
def arrayElement (self : Grammar) : Reader Node := do
  if ← atMark "," then pure .elision else spreadable self

/-- An array. -/
def arrayLiteral (self : Grammar) : Reader Node := do
  expectMark "["
  let (elements, trailing) ← within Mode.open (listUntil "]" (arrayElement self))
  expectMark "]"
  pure (.array elements trailing)

/-- A member of an object. -/
def objectMember (self : Grammar) : Reader Node := do
  if ← eatMark "..." then return .spread (← self (.assignment true))
  let c ← cursor
  let n := c.next
  let nameFollows := match n.token with
    | .word _ _ | .string _ | .number _ | .bigint => true
    | .mark t => t == "["
    | _ => false
  let async := c.isTheWord "async" && !n.newline && (nameFollows || n.isMark "*")
  let accessor := (c.isTheWord "get" || c.isTheWord "set") && nameFollows
  if async || accessor then advance
  let star ← eatMark "*"
  let at_ ← cursor
  let key ← propertyName self
  let typescript := (← mode).typescript
  if star || async || accessor || (← atMark "(") || (typescript && (← atMark "<")) then
    let parts ← functionParts self async star false
    if accessor then checkAccessor (if c.isTheWord "get" then "get" else "set") parts.params
    return .method [] key (parts.node .method none)
  if ← eatMark ":" then return .property key (← self (.assignment true))
  match at_.token with
  | .word name _ =>
      if isReserved name then fail
      checkName name
      if ← eatMark "=" then
        let value ← self (.assignment true)
        (fun _ c => some ((), { c with pending := at_.start :: c.pending }) : Reader Unit)
        return .shorthandDefault name at_.start value
      return .shorthand name
  | _ => fail

/-- An object. -/
def objectLiteral (self : Grammar) : Reader Node := do
  expectMark "\x7b"
  let (members, trailing) ← within Mode.open (listUntil "\x7d" (objectMember self))
  expectMark "\x7d"
  pure (.object members trailing)

/-- An expression in parentheses. -/
def parenthesised (self : Grammar) : Reader Node := do
  expectMark "("
  let e ← within Mode.open (expression self)
  expectMark ")"
  pure (.paren e)

/-- Whether a binary operator starts here. -/
def operatorPrecedence (m : Mode) : Token → Option Nat
  | .mark t =>
      match t with
      | "??" => some 1
      | "||" => some 2
      | "&&" => some 3
      | "|" => some 4
      | "^" => some 5
      | "&" => some 6
      | "==" | "!=" | "===" | "!==" => some 7
      | "<" | ">" | "<=" | ">=" => some 8
      | "<<" | ">>" | ">>>" => some 9
      | "+" | "-" => some 10
      | "*" | "/" | "%" => some 11
      | "**" => some 12
      | _ => none
  | .word w _ =>
      if w == "instanceof" then some 8
      else if w == "in" then if m.allowsIn then some 8 else none
      else if m.typescript && (w == "as" || w == "satisfies") then some 8
      else none
  | _ => none

/-- Whether an expression can start with the token. -/
def startsExpression : Token → Bool
  | .word w _ =>
      !(isReserved w) ||
        ["this", "super", "null", "true", "false", "function", "class", "new", "delete", "typeof",
         "void", "import"].contains w
  | .number _ | .bigint | .string _ | .template _ _ | .hash _ => true
  | .mark t =>
      ["(", "[", "\x7b", "/", "/=", "+", "-", "~", "!", "++", "--", "<", "@"].contains t
  | _ => false

/-- Type arguments inside an expression: they count as such only if what follows could not go on
from a comparison. -/
def typeArgumentsHere (self : Grammar) : Reader (List Node) := do
  reReadOpenAngle
  expectMark "<"
  let (types, _) ← listUntil ">" (self .type)
  if types.isEmpty then fail
  let c ← cursor
  if closeAngleMark c.here == ">=" then fail
  expectMark ">"
  let n ← cursor
  let m ← mode
  let follows := match n.token with
    | .template _ _ => true
    | .mark "(" => true
    | .mark "<" | .mark "<<" | .mark ">" | .mark "+" | .mark "-" => false
    | t => n.newline || (operatorPrecedence m t).isSome || !startsExpression t
  if follows then pure types else fail

/-- What a step of member accesses and calls has read so far. -/
structure Access where
  expression : Node
  /-- Whether an optional step was among the accesses. -/
  optional : Bool

/-- The member after a dot. -/
def memberAfterDot (object : Node) : Reader Node := do
  match ← token with
  | .word name _ => advance; pure (.member object name)
  | .hash name =>
      advance
      match object with
      | .parent => fault
      | _ => pure ()
      pure (.privateMember object name)
  | _ => fail

/-- The key in brackets. -/
def indexKey (self : Grammar) (object : Node) : Reader Node := do
  expectMark "["
  let key ← within Mode.open (expression self)
  expectMark "]"
  pure (.index object key)

/-- Template text after a tag. -/
def taggedTemplate (self : Grammar) (tag : Node) (types : List Node) : Reader Node := do
  let holes ← templateHoles true (within Mode.open (expression self))
  pure (.tagged tag types holes)

/-- One more member access or call, or the end of them.  After `new` neither calls nor optional
steps belong to the expression. -/
def accessStep (self : Grammar) (calls : Bool) (a : Access) : Reader (Access ⊕ Access) := do
  let m ← mode
  let c ← cursor
  let e := a.expression
  match c.token with
  | .mark "?." =>
      if !calls then fail
      advance
      let n ← cursor
      match n.token with
      | .mark "(" => return .inl ⟨.call e [] (← arguments self), true⟩
      | .mark "[" => return .inl ⟨← indexKey self e, true⟩
      | .mark "<" | .mark "<<" =>
          if !m.typescript then fail
          let types ← typeArguments self
          return .inl ⟨.call e types (← arguments self), true⟩
      | _ => return .inl ⟨← memberAfterDot e, true⟩
  | .mark "." =>
      advance
      return .inl ⟨← memberAfterDot e, a.optional⟩
  | .mark "[" =>
      if m.decorator then return .inr a
      return .inl ⟨← indexKey self e, a.optional⟩
  | .mark "!" =>
      if m.typescript && !c.newline then
        advance
        return .inl ⟨.nonNull e, a.optional⟩
      return .inr a
  | .template _ _ =>
      faultIf a.optional
      match e with
      | .instantiation tag types => return .inl ⟨← taggedTemplate self tag types, a.optional⟩
      | tag => return .inl ⟨← taggedTemplate self tag [], a.optional⟩
  | .mark "(" =>
      if !calls then return .inr a
      let args ← arguments self
      match e with
      | .instantiation callee types => return .inl ⟨.call callee types args, a.optional⟩
      | callee => return .inl ⟨.call callee [] args, a.optional⟩
  | .mark "<" | .mark "<<" =>
      if m.typescript then
        match ← attempt (typeArgumentsHere self) with
        | some types => return .inl ⟨.instantiation e types, a.optional⟩
        | none => return .inr a
      return .inr a
  | _ => return .inr a

/-- All member accesses and calls after an expression. -/
def accesses (self : Grammar) (calls : Bool) (e : Node) : Reader Access :=
  loop (accessStep self calls) ⟨e, false⟩

/-- An expression that starts with `new`. -/
def construction (self : Grammar) : Reader Node := do
  expectWord "new"
  if ← eatMark "." then
    expectWord "target"
    return .metaProperty
  let callee ← self .primary
  match callee with
  | .importCall _ => fault
  | _ => pure ()
  let a ← accesses self false callee
  let (callee, types) := match a.expression with
    | .instantiation e types => (e, types)
    | e => (e, [])
  let args ← if ← atMark "(" then arguments self else pure []
  pure (.construct callee types args)

/-- An expression that starts with `import`. -/
def importExpression (self : Grammar) : Reader Node := do
  expectWord "import"
  if ← eatMark "." then
    if ← eatWord "meta" then return .metaProperty
    if !(← atWords ["source", "defer"]) then fail
    advance
  expectMark "("
  let (args, _) ← within Mode.open (listUntil ")" (self (.assignment true)))
  expectMark ")"
  if args.isEmpty || 2 < args.length then fail
  pure (.importCall args)

/-- Whether an async function starts here. -/
def atAsyncFunction : Reader Bool := do
  let c ← cursor
  let n := c.next
  pure (c.token == .word "async" false && n.isTheWord "function" && !n.newline)

/-- A word as an expression. -/
def wordExpression (self : Grammar) (name : String) : Reader Node := do
  if ← atAsyncFunction then
    advance
    return ← functionExpression self true
  match name with
  | "true" => expectWord name; pure (.literal (.boolean true))
  | "false" => expectWord name; pure (.literal (.boolean false))
  | "null" => expectWord name; pure (.literal .null)
  | "this" => expectWord name; pure .this
  | "function" => functionExpression self false
  | "class" => classRest self false []
  | "new" => construction self
  | _ => .ident <$> identifier

/-- The word `super`, which must be followed by a member or arguments. -/
def parentExpression : Reader Node := do
  expectWord "super"
  let c ← cursor
  faultIf !(c.isMark "." || c.isMark "[" || c.isMark "(")
  pure .parent

/-- A primary expression. -/
def primary (self : Grammar) : Reader Node := do
  match ← token with
  | .word "import" _ => importExpression self
  | .word "super" _ => parentExpression
  | .word name _ => wordExpression self name
  | .number value => advance; pure (.literal (.number value))
  | .bigint => advance; pure (.literal .bigint)
  | .string value => advance; pure (.literal (.string value))
  | .template _ _ => .template <$> templateHoles false (within Mode.open (expression self))
  | .mark "(" => parenthesised self
  | .mark "[" => arrayLiteral self
  | .mark "\x7b" => objectLiteral self
  | .mark "/" | .mark "/=" =>
      reReadRegex
      match ← token with
      | .regex => advance; pure (.literal .regex)
      | _ => fail
  | .mark "@" =>
      let ds ← decorators self
      classRest self false ds
  | _ => fail

/-- A member access, a call or something tighter. -/
def leftHandSide (self : Grammar) : Reader Node := do
  let base ← primary self
  let a ← accesses self true base
  pure (if a.optional then .chain a.expression else a.expression)

/-- An expression with an increment or decrement, or something tighter. -/
def updating (self : Grammar) : Reader Node := do
  let c ← cursor
  if c.isMark "++" || c.isMark "--" then
    advance
    let e ← self .unary
    return .update (← simpleTarget e)
  let e ← leftHandSide self
  let n ← cursor
  if (n.isMark "++" || n.isMark "--") && !n.newline then
    advance
    return .update (← simpleTarget e)
  pure e

/-- Whether the word `await` at this place waits for what follows. -/
def atAwait : Reader Bool := do
  let m ← mode
  let c ← cursor
  let n := c.next
  if !c.isTheWord "await" || n.isMark "=>" then return false
  if m.awaits then return true
  let ambiguous := match n.token with
    | .mark t => ["(", "[", "/", "/=", "-", "+"].contains t
    | .template _ _ => true
    | .word w _ => w == "of"
    | _ => false
  if ambiguous || n.newline then return false
  pure (match n.token with
    | .word w _ => !(["in", "instanceof", "as", "satisfies"].contains w)
    | .number _ | .bigint | .string _ => true
    | _ => false)

/-- Whether a unary operator, `await` or a type assertion starts here. -/
def atOperator : Reader Bool := do
  let m ← mode
  match ← token with
  | .mark t => pure (["+", "-", "!", "~"].contains t || (m.typescript && t == "<"))
  | .word w _ => pure (["typeof", "void", "delete", "await"].contains w)
  | _ => pure false

/-- An expression with unary operators before it. -/
def unary (self : Grammar) : Reader Node := do
  let m ← mode
  match ← token with
  | .mark t =>
      if ["+", "-", "!", "~"].contains t then
        advance
        return .unary t (← self .unary)
      if m.typescript && t == "<" then
        advance
        let type ← self .type
        expectMark ">"
        return .assertion type (← self .unary)
      updating self
  | .word w _ =>
      if ["typeof", "void", "delete"].contains w then
        expectWord w
        return .unary w (← self .unary)
      if ← atAwait then
        faultIf !m.awaits
        expectWord w
        return .await (← within (fun m => { m with awaits := true }) (self .unary))
      updating self
  | _ => updating self

/-- An operand of a binary operator.  A power may not follow a unary operator. -/
def operand (self : Grammar) : Reader Node := do
  let operator ← atOperator
  let e ← unary self
  if operator && (← atMark "**") then fail
  pure e

/-- Whether the expression joins conditions by `&&` or `||`, without parentheses around it. -/
def joinsConditions : Node → Bool
  | .logical operator _ _ => operator == "&&" || operator == "||"
  | _ => false

/-- The node of a binary operator. -/
def binaryNode (operator : String) (left right : Node) : Reader Node := do
  if ["&&", "||", "??"].contains operator then
    faultIf (operator == "??" && (joinsConditions left || joinsConditions right))
    pure (.logical operator left right)
  else pure (.binary operator left right)

/-- One more binary operator that binds tighter than the given precedence, or the end of them. -/
def binaryStep (self : Grammar) (precedence : Nat) (left : Node) : Reader (Node ⊕ Node) := do
  reReadCloseAngle
  let m ← mode
  let c ← cursor
  match operatorPrecedence m c.token with
  | none => return .inr left
  | some p =>
      if p < precedence || (p == precedence && p != 12) then return .inr left
      match c.token with
      | .word w _ =>
          if w == "as" || w == "satisfies" then
            if c.newline then return .inr left
            advance
            return .inl (.cast left (← self .type))
          expectWord w
          let right ← self (.binary p)
          return .inl (.binary w left right)
      | .mark t =>
          advance
          let right ← self (.binary p)
          return .inl (← binaryNode t left right)
      | _ => return .inr left

/-- An expression of binary operators that bind tighter than the given precedence. -/
def binary (self : Grammar) (precedence : Nat) : Reader Node := do
  let m ← mode
  let first ← match ← token with
    | .hash _ =>
        if !m.allowsIn || 8 ≤ precedence then fail
        advance
        expectWord "in"
        let right ← self (.binary 8)
        pure (.unary "in" right)
    | _ => operand self
  loop (binaryStep self precedence) first

/-- The body of an arrow function, after the arrow. -/
def arrowBody (self : Grammar) (async resultType : Bool) : Reader (List Node) :=
  within (fun m => { m with awaits := async, yields := false, decorator := false }) do
    if ← atMark "\x7b" then functionBody self
    else return [← self (.assignment resultType)]

/-- Moves over the arrow of an arrow function, which must stand on the line of its parameters. -/
def arrowMark : Reader Unit := do
  if !(← atMark "=>") then fail
  faultIf (← onNewLine)
  advance

/-- An arrow function whose parameters stand in parentheses. -/
def parenthesisedArrow (self : Grammar) (resultAllowed : Bool) : Reader Node := do
  let async ← eatWord "async"
  let (types, params, result) ←
    within (fun m => { m with awaits := m.awaits || async }) do
      let types ← typeParameters self
      let params ← parameters self false
      let result ← resultAnnotation self
      pure (types, params, result)
  arrowMark
  let body ← arrowBody self async resultAllowed
  match result with
  | .absent => pure ()
  | _ => if !resultAllowed && !(← atMark ":") then fail
  pure (.arrow types params result body)

/-- Whether an arrow function with parentheses may start here. -/
def mayStartArrow : Reader Bool := do
  let typescript := (← mode).typescript
  let c ← cursor
  let opens (c : Cursor) : Bool := c.isMark "(" || (typescript && c.isMark "<")
  pure (opens c || (c.token == .word "async" false && !c.next.newline && opens c.next))

/-- An async arrow function with a single name as parameter, if one starts here. -/
def asyncNameArrow? (self : Grammar) (resultAllowed : Bool) : Reader (Option Node) := do
  let c ← cursor
  let n := c.next
  if c.token == .word "async" false && n.isIdentifier && !n.newline && n.next.isMark "=>" then
    advance
    let name ← within (fun m => { m with awaits := true }) identifier
    arrowMark
    let body ← arrowBody self true resultAllowed
    return some (.arrow [] [.bind name] .absent body)
  return none

/-- A `yield` expression. -/
def yielding (self : Grammar) : Reader Node := do
  expectWord "yield"
  let c ← cursor
  if c.newline then return .yield .absent
  let delegates ← eatMark "*"
  let ends ← match ← token with
    | .eof => pure true
    | .mark t => pure ([";", "\x7d", ")", "]", ":", ","].contains t)
    | .word w _ => pure (w == "in")
    | _ => pure false
  if ends && !delegates then return .yield .absent
  return .yield (← self (.assignment true))

/-- The rest of a conditional expression, if a question mark follows its test. -/
def conditionalRest (self : Grammar) (resultAllowed : Bool) (test : Node) : Reader Node := do
  if ← eatMark "?" then
    let yes ← within (fun m => { m with allowsIn := true }) (self (.assignment false))
    expectMark ":"
    let no ← self (.assignment resultAllowed)
    pure (.conditional test yes no)
  else pure test

/-- An expression above the comma. -/
def assignment (self : Grammar) (resultAllowed : Bool) : Reader Node := do
  let m ← mode
  if m.yields && (← atWord "yield") then return ← yielding self
  if ← mayStartArrow then
    if let some arrow ← attempt (parenthesisedArrow self resultAllowed) then return arrow
  if let some arrow ← asyncNameArrow? self resultAllowed then return arrow
  let left ← binary self 0
  match ← token with
  | .mark "=>" =>
      match left with
      | .ident name =>
          arrowMark
          return .arrow [] [.bind name] .absent (← arrowBody self false resultAllowed)
      | _ => fail
  | .mark t =>
      if assignMarks.contains t then
        let goal ← if t == "=" then target left else simpleTarget left
        advance
        let value ← self (.assignment resultAllowed)
        return .assign t goal value
      conditionalRest self resultAllowed left
  | _ => pure left

end Stencil.Script.Grammar
