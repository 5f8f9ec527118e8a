import Stencil.Script.Reader

/-!
# Names and lists of the grammar

Readers for identifiers, property names and modifiers, which the rest of the grammar shares.
-/

namespace Stencil.Script.Grammar

open Reader

/-- Any word, keywords included. -/
def anyWord : Reader String := do
  match ← token with
  | .word name _ => advance; pure name
  | _ => fail

/-- Whether the token is a word that may be an identifier. -/
def atIdentifier : Reader Bool := do
  match ← token with
  | .word name _ => pure !(isReserved name)
  | _ => pure false

/-- Notes a fault if the name waits or yields at this place. -/
def checkName (name : String) : Reader Unit := do
  let m ← mode
  faultIf ((m.awaits && name == "await") || (m.yields && name == "yield"))

/-- A word that is an identifier. -/
def identifier : Reader String := do
  match ← token with
  | .word name _ =>
      if isReserved name then fail
      else
        checkName name
        advance
        pure name
  | _ => fail

/-- An identifier, if there is one here. -/
def identifier? : Reader (Option String) := do
  if ← atIdentifier then some <$> identifier else pure none

/-- Whether the token starts a property name. -/
def atPropertyName : Reader Bool := do
  match ← token with
  | .word _ _ | .string _ | .number _ | .bigint | .hash _ => pure true
  | .mark m => pure (m == "[")
  | _ => pure false

/-- A property name: a word, string or number, or an expression in brackets. -/
def propertyName (self : Grammar) : Reader Node := do
  match ← token with
  | .word name _ => advance; pure (.key name)
  | .string value => advance; pure (.key value)
  | .number _ | .bigint => advance; pure (.key "")
  | .mark "[" =>
      advance
      let key ← within (fun m => { m with allowsIn := true }) (self (.assignment true))
      expectMark "]"
      pure (.computed key)
  | _ => fail

/-- Whether the token can follow a modifier. -/
def canFollowModifier : Token → Bool
  | .mark m => ["[", "\x7b", "*", "...", "@"].contains m
  | .word _ _ | .string _ | .number _ | .bigint | .hash _ => true
  | _ => false

/-- Whether the token after this word is on the same line and can follow a modifier. -/
def modifierFollows : Reader Bool :=
  nextIs fun n => !n.newline && canFollowModifier n.token

/-- Moves over the modifiers in the list that stand before something they can modify; gives those
found, the last one first. -/
def modifiers (names : List String) : Reader (List String) :=
  loop (fun (found : List String) => do
    match ← token with
    | .word name _ =>
        if names.contains name then
          if ← modifierFollows then
            advance
            return .inl (name :: found)
        return .inr found
    | _ => return .inr found) []

/-- Items up to a closing mark, of which one after dots must be the last. -/
def listWithRest (close : String) (item rest : Reader Node) : Reader (List Node) :=
  loop (fun (acc : List Node) => do
    if ← atMark close then return .inr acc.reverse
    if ← atMark "..." then
      let r ← rest
      if ← atMark close then return .inr (r :: acc).reverse
      fail
    let a ← item
    if ← eatMark "," then return .inl (a :: acc)
    if ← atMark close then return .inr (a :: acc).reverse
    fail) []

end Stencil.Script.Grammar
