import Stencil.Script.Grammar.Types

/-!
# Functions and classes

Functions read their parameters and body in a mode of their own: whether `await` waits and `yield`
yields is decided by the function, and its body may return.
-/

namespace Stencil.Script.Grammar

open Reader

/-- Statements up to a closing brace. -/
def statementsToBrace (self : Grammar) : Reader (List Node) :=
  loop (fun (acc : List Node) => do
    if ← atMark "\x7d" then return .inr acc.reverse
    let s ← self (.statement .list)
    return .inl (s :: acc)) []

/-- A body in braces. -/
def bracedBody (self : Grammar) : Reader (List Node) := do
  expectMark "\x7b"
  let body ← statementsToBrace self
  expectMark "\x7d"
  pure body

/-- A function body. -/
def functionBody (self : Grammar) : Reader (List Node) :=
  within (fun m => { m with returns := true, allowsIn := true, decorator := false })
    (bracedBody self)

/-- The parts of a function after its name. -/
structure FunctionParts where
  types : List Node
  params : List Node
  result : Node
  /-- The statements of the body, if it is not missing. -/
  body : Option (List Node)

/-- The parts as a node. -/
def FunctionParts.node (role : FunctionRole) (name : Option String) (f : FunctionParts) : Node :=
  .function role name f.types f.params f.result (f.body.getD [])

/-- A function from its type parameters on.  Where the dialect has types the body may be missing. -/
def functionParts (self : Grammar) (async generator constructor : Bool) : Reader FunctionParts :=
  within (fun m => { m with awaits := async, yields := generator, allowsIn := true
                            decorator := false }) do
    let types ← typeParameters self
    let params ← parameters self constructor
    let result ← resultAnnotation self
    if ← atMark "\x7b" then
      let body ← functionBody self
      return { types, params, result, body := some body }
    if (← mode).typescript then
      endStatement
      return { types, params, result, body := none }
    fail

/-- A function declaration, from the word `function` on.  Among declarations without code it has no
body. -/
def functionDeclaration (self : Grammar) (async nameless : Bool) : Reader (Node × Bool) := do
  expectWord "function"
  let generator ← eatMark "*"
  let name ← identifier?
  if name.isNone && !nameless then fail
  let parts ← functionParts self async generator false
  faultIf ((← mode).ambient && parts.body.isSome)
  pure (parts.node .declaration name, generator)

/-- A function expression, from the word `function` on. -/
def functionExpression (self : Grammar) (async : Bool) : Reader Node := do
  expectWord "function"
  let generator ← eatMark "*"
  let name ← within (fun m => { m with awaits := async, yields := generator }) identifier?
  let parts ← functionParts self async generator false
  pure (parts.node .expression name)

/-- Notes a fault if an accessor has the wrong number of parameters. -/
def checkAccessor (word : String) (params : List Node) : Reader Unit :=
  let (n, rest) := countParameters params
  faultIf (if word == "get" then n != 0 || rest else n != 1 || rest)

/-- Whether the word here stands before a property name and so is not one itself. -/
def accessorFollows : Reader Bool := do
  let found ← ahead do
    advance
    atPropertyName
  pure (found.getD false)

/-- The heritage of a class: what it extends, with type arguments, and what it implements. -/
def heritage (self : Grammar) : Reader (List Node) :=
  loop (fun (acc : List Node) => do
    if ← eatWord "extends" then
      let base ← self .unary
      match base with
      | .instantiation e types => return .inl (acc ++ e :: types)
      | e =>
          let types ← if (← mode).typescript then typeArguments self else pure []
          return .inl (acc ++ e :: types)
    if ← atWord "implements" then
      if !(← mode).typescript then fail
      advance
      let types ← commaSeparated (typeReference self)
      return .inl (acc ++ types)
    return .inr acc) []

/-- The modifiers of a class member.  `static` may be followed by a line end, the others not, and
before a brace it is no modifier but starts a block. -/
def memberModifiers : Reader (List String) :=
  loop (fun (found : List String) => do
    let m ← mode
    let c ← cursor
    match c.token with
    | .word name _ =>
        let known := ["static", "async", "accessor"].contains name ||
          (m.typescript &&
            ["public", "private", "protected", "readonly", "abstract", "override", "declare"].contains
              name)
        let n := c.next
        let follows := match n.token with
          | .word _ _ | .string _ | .number _ | .bigint | .hash _ => true
          | .mark t => t == "[" || t == "*"
          | _ => false
        if known && follows && (name == "static" || !n.newline) then
          advance
          return .inl (name :: found)
        return .inr found
    | _ => return .inr found) []

/-- A key of a class member: a private name or a property name. -/
def memberKey (self : Grammar) : Reader Node := do
  match ← token with
  | .hash name =>
      advance
      faultIf (name == "constructor")
      pure (.key ("#" ++ name))
  | _ => propertyName self

/-- A member of a class. -/
def classMember (self : Grammar) : Reader Node := do
  let ds ← decorators self
  let c ← cursor
  if c.isTheWord "static" && c.next.isMark "\x7b" then
    advance
    let body ← within (fun m => { m with awaits := true, yields := false, returns := false
                                         allowsIn := true }) (bracedBody self)
    return .function .method none [] [] .absent body
  let mods ← memberModifiers
  let typescript := (← mode).typescript
  if typescript then
    if ← atIndexSignature then
      let s ← indexSignature self
      endMember
      return s
  let accessor ← do
    match ← token with
    | .word name _ =>
        if (name == "get" || name == "set") && (← accessorFollows) then
          advance
          pure name
        else pure ""
    | _ => pure ""
  let star ← eatMark "*"
  let key ← memberKey self
  let async := mods.contains "async"
  let static := mods.contains "static"
  if typescript then
    let _ ← eatMark "?"
    if !(← onNewLine) then
      let _ ← eatMark "!"
  let named (n : String) : Bool := match key with | .key k => k == n | _ => false
  if star || accessor != "" || (← atMark "(") || (typescript && (← atMark "<")) then
    let parts ← functionParts self async star (!static && named "constructor")
    if accessor != "" then checkAccessor accessor parts.params
    faultIf (!static && named "constructor" && (star || async || accessor != ""))
    faultIf (static && named "prototype")
    return .method ds key (parts.node .method none)
  if async then fail
  faultIf (named "constructor" || (static && named "prototype"))
  let type ← annotation self
  let value ← within (fun m => { m with awaits := false, yields := false }) (initializer self)
  endStatement
  pure (.field ds key type value)

/-- The members of a class in braces; stray semicolons are skipped. -/
def classMembers (self : Grammar) : Reader (List Node) := do
  expectMark "\x7b"
  let members ← loop (fun (acc : List Node) => do
    if ← atMark "\x7d" then return .inr acc.reverse
    if ← eatMark ";" then return .inl acc
    let m ← classMember self
    return .inl (m :: acc)) []
  expectMark "\x7d"
  pure members

/-- A class, from the word `class` on. -/
def classRest (self : Grammar) (declared : Bool) (ds : List Node) : Reader Node := do
  expectWord "class"
  let name ← if ← atWord "implements" then pure none else identifier?
  let types ← typeParameters self
  let bases ← heritage self
  let members ← within (fun m => { m with decorator := false }) (classMembers self)
  pure (.klass declared name ds types bases members)

end Stencil.Script.Grammar
