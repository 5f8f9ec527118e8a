import Stencil.Script.Grammar.Parameters

/-!
# Types

The type language of the typed dialect.  Of a type the tree keeps the names it refers to, and the
scopes that function types, mapped types and conditional types open for their own names.
-/

namespace Stencil.Script.Grammar

open Reader

/-- One parameter of a generic declaration. -/
def typeParameter (self : Grammar) : Reader Node := do
  let _ ← modifiers ["const", "in", "out"]
  let name ← identifier
  let bound ← if ← eatWord "extends" then self .type else pure .absent
  let default ← if ← eatMark "=" then self .type else pure .absent
  pure (.typeParameter name bound default)

/-- Type parameters in angles, if the dialect has types and an angle is here. -/
def typeParameters (self : Grammar) : Reader (List Node) := do
  if !(← mode).typescript then return []
  if !(← atMark "<") then return []
  advance
  let (params, _) ← listUntil ">" (typeParameter self)
  faultIf params.isEmpty
  expectMark ">"
  pure params

/-- Type arguments in angles after a type name. -/
def typeArguments (self : Grammar) : Reader (List Node) := do
  if ← onNewLine then return []
  match ← token with
  | .mark "<" | .mark "<<" =>
      reReadOpenAngle
      expectMark "<"
      let (types, _) ← listUntil ">" (self .type)
      faultIf types.isEmpty
      expectMark ">"
      pure types
  | _ => pure []

/-- The further words of a dotted name. -/
def dottedRest : Reader Unit :=
  loop (fun (_ : Unit) => do
    if ← eatMark "." then
      let _ ← anyWord
      return .inl ()
    else return .inr ()) ()

/-- A type named by words and dots, with arguments. -/
def typeReference (self : Grammar) : Reader Node := do
  let name ← anyWord
  dottedRest
  let arguments ← typeArguments self
  pure (.typeName name arguments)

/-- Words that name a type of their own unless a dot follows. -/
def keywordTypes : List String :=
  ["any", "unknown", "number", "object", "string", "bigint", "symbol", "boolean", "undefined",
   "never", "null", "intrinsic"]

/-- Ends a member of an object type. -/
def endMember : Reader Unit := do
  if ← eatMark "," then pure () else endStatement

/-- The result of a function type, which may also say what a parameter is. -/
def resultType (self : Grammar) : Reader Node := do
  let claim ← attempt do
    let asserting ← ahead do
      expectWord "asserts"
      let c ← cursor
      if c.isWord && !c.newline then pure () else fail
    if asserting.isSome then
      advance
      let _ ← anyWord
      if ← eatWord "is" then self .type else pure (.typeGroup [])
    else
      let _ ← anyWord
      let c ← cursor
      if c.isTheWord "is" && !c.newline then
        advance
        self .type
      else fail
  match claim with
  | some type => pure type
  | none => self .type

/-- A type after a colon that may also say what a parameter is. -/
def resultAnnotation (self : Grammar) : Reader Node := do
  if (← mode).typescript then
    if ← eatMark ":" then
      return ← within (fun m => { m with plainExtends := false }) (resultType self)
  pure .absent

/-- A signature: type parameters, parameters and an optional result. -/
def signature (self : Grammar) : Reader Node := do
  let types ← typeParameters self
  let params ← parameters self false
  let result ← resultAnnotation self
  pure (.typeScope types params [result])

/-- A function or constructor type. -/
def functionType (self : Grammar) : Reader Node := do
  let _ ← eatWord "abstract"
  let _ ← eatWord "new"
  let types ← typeParameters self
  let params ← parameters self false
  expectMark "=>"
  let result ← resultType self
  pure (.typeScope types params [result])

/-- Whether a parenthesis here starts a parameter list for certain. -/
def startsParameters (self : Grammar) : Reader Bool := do
  let found ← ahead do
    expectMark "("
    if ← atMark ")" then return true
    if ← atMark "..." then return true
    let _ ← modifiers ["public", "private", "protected", "readonly", "override"]
    let c ← cursor
    if c.isWord then advance
    else if c.isMark "[" || c.isMark "\x7b" then
      let _ ← self .pattern
      pure ()
    else fail
    match ← token with
    | .mark m =>
        if [":", ",", "?", "="].contains m then return true
        if m == ")" then
          advance
          return ← atMark "=>"
        return false
    | _ => return false
  pure (found.getD false)

/-- Whether a function or constructor type starts here. -/
def atFunctionType (self : Grammar) : Reader Bool := do
  match ← token with
  | .mark "<" => pure true
  | .mark "(" => startsParameters self
  | .word "new" _ => pure true
  | .word "abstract" _ => nextIs (Cursor.isTheWord "new")
  | _ => pure false

/-- Whether a brace here starts a mapped type. -/
def atMappedType : Reader Bool := do
  let found ← ahead do
    expectMark "\x7b"
    if (← atMark "+") || (← atMark "-") then
      advance
      return ← atWord "readonly"
    let _ ← eatWord "readonly"
    expectMark "["
    let _ ← anyWord
    atWord "in"
  pure (found.getD false)

/-- A mapped type. -/
def mappedType (self : Grammar) : Reader Node := do
  expectMark "\x7b"
  if (← atMark "+") || (← atMark "-") then
    advance
    expectWord "readonly"
  else
    let _ ← eatWord "readonly"
  expectMark "["
  let name ← anyWord
  expectWord "in"
  let domain ← self .type
  let renamed ← if ← eatWord "as" then self .type else pure .absent
  expectMark "]"
  if (← atMark "+") || (← atMark "-") then
    advance
    expectMark "?"
  else
    let _ ← eatMark "?"
  let value ← annotation self
  let _ ← eatMark ";"
  let _ ← eatMark ","
  expectMark "\x7d"
  pure (.typeScope [.typeParameter name domain .absent] [] [renamed, value])

/-- Whether a bracket here starts an index signature. -/
def atIndexSignature : Reader Bool := do
  let found ← ahead do
    expectMark "["
    let _ ← anyWord
    if ← atMark ":" then pure true else atMark ","
  pure (found.getD false)

/-- An index signature, without its end. -/
def indexSignature (self : Grammar) : Reader Node := do
  expectMark "["
  let name ← anyWord
  expectMark ":"
  let key ← self .type
  let _ ← eatMark ","
  expectMark "]"
  let value ← annotation self
  pure (.typeScope [] [.typed (.bind name) key] [value])

/-- A member of an object type. -/
def typeMember (self : Grammar) : Reader Node := do
  let c ← cursor
  if c.isMark "(" || c.isMark "<" then
    let s ← signature self
    endMember
    return s
  if c.isTheWord "new" && (c.next.isMark "(" || c.next.isMark "<") then
    advance
    let s ← signature self
    endMember
    return s
  let _ ← modifiers ["readonly"]
  if ← atIndexSignature then
    let s ← indexSignature self
    endMember
    return s
  if ← atWords ["get", "set"] then
    if ← nextIs (canFollowModifier ·.token) then
      advance
      let key ← propertyName self
      let params ← parameters self false
      let result ← resultAnnotation self
      endMember
      return .typeGroup [key, .typeScope [] params [result]]
  let key ← propertyName self
  let _ ← eatMark "?"
  if (← atMark "(") || (← atMark "<") then
    let s ← signature self
    endMember
    return .typeGroup [key, s]
  let type ← annotation self
  endMember
  pure (.typeGroup [key, type])

/-- The members of an object type in braces. -/
def typeMembers (self : Grammar) : Reader (List Node) := do
  expectMark "\x7b"
  let members ← loop (fun (acc : List Node) => do
    if ← atMark "\x7d" then return .inr acc.reverse
    let member ← typeMember self
    return .inl (member :: acc)) []
  expectMark "\x7d"
  pure members

/-- An element of a tuple type, possibly named, optional or taking the rest. -/
def tupleElement (self : Grammar) : Reader Node := do
  let _ ← eatMark "..."
  let c ← cursor
  if c.isWord then
    if c.next.isMark ":" then
      advance
      advance
      return ← self .type
    if c.next.isMark "?" && c.next.next.isMark ":" then
      advance
      advance
      advance
      return ← self .type
  let type ← self .type
  let _ ← eatMark "?"
  pure type

/-- An imported type. -/
def importType (self : Grammar) : Reader Node := do
  expectWord "import"
  expectMark "("
  let argument ← self .type
  if ← eatMark "," then
    if !(← atMark ")") then
      let _ ← self (.assignment true)
      let _ ← eatMark ","
  expectMark ")"
  dottedRest
  let arguments ← typeArguments self
  pure (.typeGroup (argument :: arguments))

/-- The type of a value. -/
def typeQuery (self : Grammar) : Reader Node := do
  expectWord "typeof"
  if ← atWord "import" then return ← importType self
  let c ← cursor
  match c.token with
  | .word name _ =>
      advance
      loop (fun (_ : Unit) => do
        if ← eatMark "." then
          match ← token with
          | .word _ _ | .hash _ => advance; return .inl ()
          | _ => fail
        else return .inr ()) ()
      let arguments ← typeArguments self
      if name == "this" then pure (.typeGroup arguments) else pure (.typeQuery name arguments)
  | _ => fail

/-- The holes of template text whose first piece is the token here. -/
def templateHoles (tagged : Bool) (hole : Reader Node) : Reader (List Node) := do
  let first ← token
  match first with
  | .template last valid =>
      faultIf (!tagged && !valid)
      if last then
        advance
        return []
      advance
      loop (fun (acc : List Node) => do
        let h ← hole
        if !(← atMark "\x7d") then fail
        reReadTemplate
        match ← token with
        | .template last valid =>
            faultIf (!tagged && !valid)
            advance
            if last then return .inr (h :: acc).reverse
            return .inl (h :: acc)
        | _ => fail) []
  | _ => fail

/-- A type without operators and brackets after it. -/
def primaryType (self : Grammar) : Reader Node := do
  let c ← cursor
  match c.token with
  | .string _ | .number _ | .bigint => advance; pure (.typeGroup [])
  | .template _ _ => .typeGroup <$> templateHoles false (self .type)
  | .mark "-" =>
      advance
      match ← token with
      | .number _ | .bigint => advance; pure (.typeGroup [])
      | _ => fail
  | .mark "\x7b" =>
      if ← atMappedType then mappedType self else .typeGroup <$> typeMembers self
  | .mark "[" =>
      advance
      let (elements, _) ← listUntil "]" (tupleElement self)
      expectMark "]"
      pure (.typeGroup elements)
  | .mark "(" =>
      advance
      let type ← within (fun m => { m with plainExtends := false }) (self .type)
      expectMark ")"
      pure (.typeGroup [type])
  | .word name _ =>
      if ["true", "false", "void"].contains name then
        advance
        pure (.typeGroup [])
      else if name == "this" then
        advance
        let n ← cursor
        if n.isTheWord "is" && !n.newline then
          advance
          self .type
        else pure (.typeGroup [])
      else if name == "typeof" then typeQuery self
      else if name == "import" then importType self
      else if keywordTypes.contains name && !c.next.isMark "." then
        advance
        pure (.typeGroup [])
      else typeReference self
  | _ => fail

/-- Whether a type starts here, so that brackets hold an index. -/
def atType : Reader Bool := do
  match ← token with
  | .word _ _ | .string _ | .number _ | .bigint | .template _ _ => pure true
  | .mark m => pure (["\x7b", "[", "(", "<", "|", "&", "-", "..."].contains m)
  | _ => pure false

/-- A type with brackets after it. -/
def postfixType (self : Grammar) : Reader Node := do
  let type ← primaryType self
  loop (fun (type : Node) => do
    let c ← cursor
    if c.isMark "[" && !c.newline then
      advance
      if ← atMark "]" then
        advance
        return .inl type
      if !(← atType) then fail
      let index ← self .type
      expectMark "]"
      return .inl (.typeGroup [type, index])
    else return .inr type) type

/-- A type with operators before it. -/
def typeOperand (self : Grammar) : Reader Node := do
  match ← token with
  | .word name _ =>
      if ["keyof", "unique", "readonly"].contains name then
        advance
        self .typeOperand
      else if name == "infer" then
        advance
        let inferred ← identifier
        let plain := (← mode).plainExtends
        let bound ← attempt do
          expectWord "extends"
          let bound ← within (fun m => { m with plainExtends := true }) (self .type)
          if !plain && (← atMark "?") then fail else pure bound
        pure (.typeParameter inferred (bound.getD .absent) .absent)
      else within (fun m => { m with plainExtends := false }) (postfixType self)
  | _ => within (fun m => { m with plainExtends := false }) (postfixType self)

/-- Types joined by a mark, which may also stand before the first. -/
def joinedTypes (mark : String) (item : Reader Node) : Reader Node := do
  let _ ← eatMark mark
  let first ← item
  let types ← loop (fun (acc : List Node) => do
    if ← eatMark mark then
      let t ← item
      return .inl (t :: acc)
    else return .inr acc.reverse) [first]
  match types with
  | [t] => pure t
  | ts => pure (.typeGroup ts)

/-- An operand of a union: a function type may stand there too. -/
def unionOperand (self : Grammar) : Reader Node := do
  if ← atFunctionType self then functionType self else self .typeOperand

/-- A type. -/
def type (self : Grammar) : Reader Node := do
  if ← atFunctionType self then return ← functionType self
  let check ← joinedTypes "|" (joinedTypes "&" (unionOperand self))
  let c ← cursor
  if (← mode).plainExtends || c.newline || !c.isTheWord "extends" then return check
  advance
  let bound ← within (fun m => { m with plainExtends := true }) (self .type)
  expectMark "?"
  let yes ← within (fun m => { m with plainExtends := false }) (self .type)
  expectMark ":"
  let no ← within (fun m => { m with plainExtends := false }) (self .type)
  pure (.conditionalType check bound yes no)

end Stencil.Script.Grammar
