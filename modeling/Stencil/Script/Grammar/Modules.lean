import Stencil.Script.Grammar.Declarations

/-!
# Imports and exports

The statements through which a module exchanges names, and the reader for any statement.
-/

namespace Stencil.Script.Grammar

open Reader

/-- A string. -/
def stringText : Reader String := do
  match ← token with
  | .string value => advance; pure value
  | _ => fail

/-- A name as modules exchange it. -/
def moduleName : Reader ModuleName := do
  match ← token with
  | .word name _ => advance; pure (.word name)
  | .string value => advance; pure (.quoted value)
  | _ => fail

/-- Whether a name as modules exchange it is here. -/
def atModuleName : Reader Bool := do
  match ← token with
  | .word _ _ | .string _ => pure true
  | _ => pure false

/-- One attribute of an import. -/
def importAttribute : Reader (ModuleName × String) := do
  let key ← moduleName
  expectMark ":"
  let value ← stringText
  pure (key, value)

/-- The attributes after an import's source, if there are any. -/
def importAttributes : Reader (Option (String × List (ModuleName × String))) := do
  let c ← cursor
  let word := if c.isTheWord "with" then "with"
    else if c.isTheWord "assert" && !c.newline then "assert" else ""
  if word == "" then return none
  advance
  expectMark "\x7b"
  let (entries, _) ← listUntil "\x7d" importAttribute
  expectMark "\x7d"
  pure (some (word, entries))

/-- A specifier: the name on the other side, the name on this side, and whether it is a type.  Where
there are types, a first word `type` may be a name or mark the specifier as one. -/
def specifier : Reader (ModuleName × ModuleName × Bool) := do
  let first ← moduleName
  let renamed (name : ModuleName) (typeOnly : Bool) : Reader (ModuleName × ModuleName × Bool) := do
    if ← eatWord "as" then return (name, ← moduleName, typeOnly)
    return (name, name, typeOnly)
  if (← mode).typescript && first == .word "type" then
    if ← eatWord "as" then
      if ← eatWord "as" then
        if ← atModuleName then return (.word "as", ← moduleName, true)
        return (first, .word "as", false)
      if ← atModuleName then return (first, ← moduleName, false)
      return (.word "as", .word "as", true)
    if ← atModuleName then
      let name ← moduleName
      return ← renamed name true
    return (first, first, false)
  renamed first false

/-- A specifier in the braces of an import; the name on this side must be an identifier. -/
def importName : Reader ImportName := do
  let (imported, here, typeOnly) ← specifier
  match here with
  | .word name =>
      if isReserved name then fail
      checkName name
      pure { imported, localName := name, typeOnly }
  | .quoted _ => fail

/-- The names in braces of an import. -/
def importNames : Reader (List ImportName) := do
  expectMark "\x7b"
  let (names, _) ← listUntil "\x7d" importName
  expectMark "\x7d"
  pure names

/-- The name after an asterisk. -/
def namespaceName : Reader String := do
  expectMark "*"
  expectWord "as"
  identifier

/-- The end of an import: its source and attributes. -/
def importEnd (i : Import) : Reader Node := do
  let source ← stringText
  let attributes ← importAttributes
  endStatement
  pure (.importing { i with source, attributes })

/-- The end of an import with bindings: the word `from` first. -/
def importFrom (i : Import) : Reader Node := do
  expectWord "from"
  importEnd i

/-- The bindings of an import after its default name, if it has one. -/
def importBindings (i : Import) : Reader Node := do
  match ← token with
  | .mark "*" => importFrom { i with namespaceName := some (← namespaceName) }
  | .mark "\x7b" => importFrom { i with names := some (← importNames) }
  | _ => fail

/-- An import after its modifiers and its default name. -/
def importAfterName (i : Import) (name : String) : Reader Node := do
  let i := { i with defaultName := some name }
  if ← eatMark "," then importBindings i else importFrom i

/-- An import statement, after the word `import`. -/
def importRest : Reader Node := do
  let i : Import := { source := "" }
  let c ← cursor
  match c.token with
  | .string _ => importEnd i
  | .word _ _ =>
      let name ← identifier
      let n ← cursor
      let typescript := (← mode).typescript
      if typescript && name == "type" &&
          (!n.isTheWord "from" || n.next.isTheWord "from" || n.next.isMark "=") &&
          (n.isIdentifier || n.isMark "*" || n.isMark "\x7b") then
        let i := { i with typeOnly := true }
        if !n.isIdentifier then return ← importBindings i
        let name ← identifier
        if ← atMark "=" then return ← importEqualsRest name
        return ← importAfterName i name
      if name == "defer" && n.isMark "*" then
        return ← importBindings { i with phase := some "defer" }
      if name == "source" && n.isIdentifier && (!n.isTheWord "from" || n.next.isTheWord "from") then
        let name ← identifier
        return ← importAfterName { i with phase := some "source" } name
      if typescript && n.isMark "=" then return ← importEqualsRest name
      importAfterName i name
  | _ => importBindings i

/-- A statement that starts with `import`. -/
def importStatement (self : Grammar) : Reader Node := do
  let n := (← cursor).next
  if n.isMark "(" || n.isMark "." then expressionOrLabelled self
  else
    expectWord "import"
    importRest

/-- Exported names in braces, with or without a source. -/
def exportList : Reader Node := do
  expectMark "\x7b"
  let (names, _) ← listUntil "\x7d" specifier
  expectMark "\x7d"
  let exported := names.map fun (_, e, _) => e.text
  if ← eatWord "from" then
    let _ ← stringText
    let _ ← importAttributes
    endStatement
    return .exporting exported .absent
  let invalid := names.any fun (name, _, _) =>
    match name with
    | .word n => isReserved n || futureWords.contains n
    | .quoted _ => true
  faultIf invalid
  endStatement
  return .exporting exported (.sequence (names.map fun (name, _, _) => .ident name.text))

/-- An export of everything another module exports. -/
def exportAll : Reader Node := do
  expectMark "*"
  let name ← if ← eatWord "as" then some <$> moduleName else pure none
  expectWord "from"
  let _ ← stringText
  let _ ← importAttributes
  endStatement
  pure (.exportingAll (name.map ModuleName.text))

/-- An export of a default value, after the word `default`. -/
def exportDefaultRest (self : Grammar) : Reader Node := do
  let c ← cursor
  let typescript := (← mode).typescript
  let ds ← decorators self
  if ← atWord "function" then
    let (f, _) ← functionDeclaration self false true
    return .exportingDefault f
  if ← atAsyncFunction then
    advance
    let (f, _) ← functionDeclaration self true true
    return .exportingDefault f
  if ← atWord "class" then return .exportingDefault (← classRest self true ds)
  if typescript && c.isTheWord "abstract" && c.next.isTheWord "class" then
    advance
    return .exportingDefault (← classRest self true ds)
  if typescript && c.isTheWord "interface" && c.next.isIdentifier && !c.next.newline then
    return .exportingDefault (← interfaceDeclaration self)
  let e ← self (.assignment true)
  endStatement
  pure (.exportingDefault e)

/-- A statement that starts with `export`. -/
def exportStatement (self : Grammar) (ds : List Node) : Reader Node := do
  expectWord "export"
  let typescript := (← mode).typescript
  let c ← cursor
  let n := c.next
  match c.token with
  | .mark "*" => exportAll
  | .mark "\x7b" => exportList
  | .mark "=" =>
      if !typescript then fail
      advance
      let e ← expression self
      endStatement
      return .perform e
  | .mark "@" =>
      let more ← decorators self
      return .exporting [] (← classRest self true (ds ++ more))
  | .word w _ =>
      if w == "default" then
        expectWord w
        return ← exportDefaultRest self
      if typescript then
        if w == "type" && n.isMark "\x7b" then
          advance
          return ← exportList
        if w == "type" && n.isMark "*" then
          advance
          return ← exportAll
        if w == "as" && n.isTheWord "namespace" then
          advance
          advance
          let _ ← identifier
          endStatement
          return .empty
        if w == "import" then
          advance
          let _ ← if n.isTheWord "type" && n.next.isIdentifier then eatWord "type" else pure false
          let name ← identifier
          return .exporting [] (← importEqualsRest name)
        if w == "class" then return .exporting [] (← classRest self true ds)
        if declarationAt 8 c then return .exporting [] (← modifiedDeclaration self)
      if w == "class" then
        let k ← classRest self true ds
        return .exporting (declaredNames k) k
      if ["var", "let", "const", "function"].contains w || (← atAsyncFunction) then
        let d ← plainStatement self .list
        match d with
        | .variables _ _ | .function _ _ _ _ _ _ => return .exporting (declaredNames d) d
        | _ => fail
      if w == "using" then fail
      fail
  | _ => fail

/-- A statement. -/
def statement (self : Grammar) (nesting : Nesting) : Reader Node := do
  let c ← cursor
  match c.token with
  | .word "import" _ => importStatement self
  | .word "export" _ => exportStatement self []
  | .word "const" _ =>
      if (← mode).typescript && c.next.isTheWord "enum" then
        advance
        enumDeclaration self
      else plainStatement self nesting
  | .mark "@" =>
      let ds ← decorators self
      if ← atWord "export" then exportStatement self ds
      else if (← mode).typescript && (← atWord "abstract") then
        advance
        classStatement self nesting ds
      else classStatement self nesting ds
  | _ => if ← atDeclaration then modifiedDeclaration self else plainStatement self nesting

end Stencil.Script.Grammar
