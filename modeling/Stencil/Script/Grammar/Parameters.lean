import Stencil.Script.Grammar.Names

/-!
# Patterns and parameters

Patterns bind names in declarations and parameter lists.  Parameters may carry decorators,
modifiers, a question mark and a type where the dialect has types.
-/

namespace Stencil.Script.Grammar

open Reader

/-- A type after a colon, if the dialect has types and a colon is here. -/
def annotation (self : Grammar) : Reader Node := do
  if (← mode).typescript then
    if ← eatMark ":" then return ← self .type
  pure .absent

/-- A pattern with its type, if it has one. -/
def withType (pattern type : Node) : Node :=
  match type with
  | .absent => pattern
  | _ => .typed pattern type

/-- An initial value after an equals sign, if there is one. -/
def initializer (self : Grammar) : Reader Node := do
  if ← eatMark "=" then within (fun m => { m with allowsIn := true }) (self (.assignment true))
  else pure .absent

/-- The pattern with its default value, if there is one here. -/
def defaulting (self : Grammar) (pattern : Node) : Reader Node := do
  match ← initializer self with
  | .absent => pure pattern
  | value => pure (.patternDefault pattern value)

/-- A pattern after three dots. -/
def restPattern (self : Grammar) : Reader Node := do
  expectMark "..."
  let pattern ← self .pattern
  let type ← annotation self
  pure (.restPattern (withType pattern type))

/-- The last element of an array pattern, after three dots. -/
def restElement (self : Grammar) : Reader Node := do
  expectMark "..."
  .restPattern <$> self .pattern

/-- An element of an array pattern. -/
def patternElement (self : Grammar) : Reader Node := do
  if ← atMark "," then pure .elision
  else
    let pattern ← self .pattern
    defaulting self pattern

/-- An array pattern. -/
def arrayPattern (self : Grammar) : Reader Node := do
  expectMark "["
  let elements ← listWithRest "]" (patternElement self) (restElement self)
  expectMark "]"
  pure (.arrayPattern elements)

/-- A member of an object pattern: a name to bind, or a key and a pattern. -/
def patternMember (self : Grammar) : Reader Node := do
  let bindable ← atIdentifier
  let before ← cursor
  let key ← propertyName self
  if ← eatMark ":" then
    let pattern ← self .pattern
    return .property key (← defaulting self pattern)
  match bindable, before.token with
  | true, .word name _ =>
      checkName name
      defaulting self (.bind name)
  | _, _ => fail

/-- Three dots and a name, the last member of an object pattern. -/
def restMember : Reader Node := do
  expectMark "..."
  let name ← identifier
  pure (.restPattern (.bind name))

/-- An object pattern. -/
def objectPattern (self : Grammar) : Reader Node := do
  expectMark "\x7b"
  let members ← listWithRest "\x7d" (patternMember self) restMember
  expectMark "\x7d"
  pure (.objectPattern members)

/-- A pattern. -/
def pattern (self : Grammar) : Reader Node := do
  match ← token with
  | .mark "[" => arrayPattern self
  | .mark "\x7b" => objectPattern self
  | _ => .bind <$> identifier

/-- The expression of a decorator: a name with members and calls, or one in parentheses. -/
def decorator (self : Grammar) : Reader Node := do
  expectMark "@"
  within (fun m => { m with decorator := true }) (self .unary)

/-- The decorators before a class, member or parameter. -/
def decorators (self : Grammar) : Reader (List Node) :=
  loop (fun (acc : List Node) => do
    if ← atMark "@" then
      let d ← decorator self
      return .inl (d :: acc)
    else return .inr acc.reverse) []

/-- One parameter.  Those of a constructor may declare properties, which further modifiers say. -/
def parameter (self : Grammar) (constructor : Bool) : Reader Node := do
  let ds ← decorators self
  let m ← mode
  let mods ← if m.typescript then
      modifiers ["public", "private", "protected", "readonly", "override"] else pure []
  faultIf (!constructor && mods.any (· != "readonly"))
  let p ← self .pattern
  let _ ← if m.typescript then eatMark "?" else pure false
  let type ← annotation self
  let p ← defaulting self (withType p type)
  pure (if ds.isEmpty then p else .parameter ds p)

/-- Moves over a parameter named `this`, which only states a type. -/
def thisParameter (self : Grammar) : Reader (List Node) := do
  if (← mode).typescript then
    if ← eatWord "this" then
      let type ← annotation self
      if !(← atMark ")") then expectMark ","
      return [.typed .this type]
  pure []

/-- A parameter list in parentheses. -/
def parameters (self : Grammar) (constructor : Bool) : Reader (List Node) := do
  expectMark "("
  let this ← thisParameter self
  let params ← listWithRest ")" (parameter self constructor) (restPattern self)
  expectMark ")"
  pure (this ++ params)

/-- How many parameters there are, `this` apart, and whether the last takes the rest. -/
def countParameters : List Node → Nat × Bool
  | [] => (0, false)
  | p :: rest =>
      let (n, open_) := countParameters rest
      match p with
      | .typed .this _ => (n, open_)
      | .restPattern _ => (n, true)
      | _ => (n + 1, open_)

end Stencil.Script.Grammar
