import Stencil.Script.Grammar.Statements

/-!
# Declarations of the typed dialect

Interfaces, type aliases, enumerations, namespaces and the modifiers before declarations.  Each
starts with a word that is an identifier elsewhere, so what follows it on the same line decides.
-/

namespace Stencil.Script.Grammar

open Reader

/-- Whether a declaration starts at the cursor, after at most the given number of modifiers. -/
def declarationAt : Nat → Cursor → Bool
  | 0, _ => false
  | fuel + 1, c =>
      let n := c.next
      match c.token with
      | .word w _ =>
          if ["var", "let", "const", "function", "class", "enum"].contains w then true
          else if w == "interface" || w == "type" then n.isIdentifier && !n.newline
          else if w == "module" || w == "namespace" then
            !n.newline && (n.isIdentifier || match n.token with | .string _ => true | _ => false)
          else if ["abstract", "accessor", "async", "declare", "private", "protected", "public",
                   "readonly"].contains w then
            !n.newline && declarationAt fuel n
          else if w == "global" then n.isMark "\x7b" || n.isIdentifier || n.isTheWord "export"
          else if w == "static" then declarationAt fuel n
          else if w == "import" then
            n.isWord || n.isMark "*" || n.isMark "\x7b" ||
              match n.token with | .string _ => true | _ => false
          else false
      | _ => false

/-- Words that can start a declaration of the typed dialect. -/
def declarationWords : List String :=
  ["interface", "type", "module", "namespace", "declare", "enum", "private", "protected", "public",
   "abstract", "accessor", "static", "readonly", "global"]

/-- Whether a declaration of the typed dialect starts here. -/
def atDeclaration : Reader Bool := do
  if !(← mode).typescript then return false
  let c ← cursor
  match c.token with
  | .word w _ => pure (declarationWords.contains w && declarationAt 8 c)
  | _ => pure false

/-- An interface, from its first word on. -/
def interfaceDeclaration (self : Grammar) : Reader Node := do
  expectWord "interface"
  let name ← identifier
  let types ← typeParameters self
  let bases ← if ← eatWord "extends" then commaSeparated (typeReference self) else pure []
  let members ← typeMembers self
  pure (.typeDeclaration name types (bases ++ members))

/-- A type alias, from its first word on. -/
def aliasDeclaration (self : Grammar) : Reader Node := do
  expectWord "type"
  let name ← identifier
  let types ← typeParameters self
  expectMark "="
  let type ← self .type
  endStatement
  pure (.typeDeclaration name types [type])

/-- Whether the expression is text without holes. -/
def isPlainText : Node → Bool
  | .literal (.string _) | .template [] => true
  | _ => false

/-- The name of a member of an enumeration: no number, and of the computed ones only text. -/
def enumKey (self : Grammar) : Reader Node := do
  match ← token with
  | .number _ | .bigint => fail
  | _ =>
      match ← propertyName self with
      | .computed key => if isPlainText key then pure (.computed key) else fail
      | key => pure key

/-- A member of an enumeration. -/
def enumMember (self : Grammar) : Reader Node := do
  let key ← enumKey self
  let value ← initializer self
  pure (.property key value)

/-- An enumeration, from the word `enum` on. -/
def enumDeclaration (self : Grammar) : Reader Node := do
  expectWord "enum"
  let name ← identifier
  expectMark "\x7b"
  let (members, _) ← listUntil "\x7d" (enumMember self)
  expectMark "\x7d"
  pure (.enumeration name members)

/-- A namespace or module block, from its first word on. -/
def spaceDeclaration (self : Grammar) : Reader Node := do
  let c ← cursor
  advance
  if c.isTheWord "global" then return .space none (← bracedBody self)
  match ← token with
  | .string _ =>
      advance
      if ← atMark "\x7b" then return .space none (← bracedBody self)
      endStatement
      return .space none []
  | _ =>
      let name ← identifier
      dottedRest
      return .space (some name) (← bracedBody self)

/-- The rest of an import that names a part of a namespace, from the equals sign on. -/
def importEqualsRest (name : String) : Reader Node := do
  expectMark "="
  if (← atWord "require") && (← nextIs (Cursor.isMark "(")) then
    advance
    expectMark "("
    match ← token with
    | .string _ => advance
    | _ => fail
    expectMark ")"
    endStatement
    return .alias name .absent
  let root ← anyWord
  dottedRest
  endStatement
  return .alias name (.typeName root [])

/-- Moves over the modifiers before a declaration; gives those found, the last one first. -/
def declarationModifiers : Reader (List String) :=
  loop (fun (found : List String) => do
    match ← token with
    | .word w _ =>
        let n := (← cursor).next
        if ["declare", "abstract", "private", "protected", "public", "readonly", "static",
            "accessor"].contains w && n.isWord then
          advance
          return .inl (w :: found)
        return .inr found
    | _ => return .inr found) []

/-- A declaration after its modifiers. -/
def declaration (self : Grammar) : Reader Node := do
  let c ← cursor
  match c.token with
  | .word w _ =>
      match w with
      | "interface" => interfaceDeclaration self
      | "type" => aliasDeclaration self
      | "enum" => enumDeclaration self
      | "module" | "namespace" | "global" => spaceDeclaration self
      | "const" =>
          if c.next.isTheWord "enum" then
            advance
            enumDeclaration self
          else plainStatement self .list
      | "var" | "let" | "function" | "class" | "async" => plainStatement self .list
      | "import" =>
          advance
          let name ← identifier
          importEqualsRest name
      | _ => fail
  | _ => fail

/-- Whether some modifiers may stand together before a declaration with the given first word. -/
def modifiersFit (word : String) : List String → Bool
  | [] => true
  | m :: rest =>
      (m == "declare" || (m == "abstract" && word == "class")) && !rest.contains m &&
        modifiersFit word rest

/-- A declaration of the typed dialect with its modifiers. -/
def modifiedDeclaration (self : Grammar) : Reader Node := do
  let mods ← declarationModifiers
  match ← token with
  | .word word _ => faultIf !(modifiersFit word mods)
  | _ => pure ()
  within (fun m => { m with ambient := m.ambient || mods.contains "declare" }) (declaration self)

end Stencil.Script.Grammar
