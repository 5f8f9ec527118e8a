import Stencil.Script.Tree

/-!
# What a parser tells

Expressions and scripts are read by a parser that is handed in.  It is asked for the statements of a
text that is a module, for the expression at the start of a text, and for the names that each
construct with a scope of its own binds.
-/

namespace Stencil.Script

/-- A statement of a module, and the offsets where it starts and ends. -/
structure Item where
  node : Node
  start : Nat
  stop : Nat
  deriving Repr

/-- Names bound by scopes. -/
structure Scope where
  values : List String := []
  types : List String := []
  deriving Repr

namespace Scope

/-- A scope that binds names as values. -/
def ofValues (names : List String) : Scope := ⟨names, []⟩

/-- A scope that binds names as types. -/
def ofTypes (names : List String) : Scope := ⟨[], names⟩

/-- A scope that binds names as values and as types. -/
def ofBoth (names : List String) : Scope := ⟨names, names⟩

/-- Both scopes together. -/
def join (a b : Scope) : Scope := ⟨a.values ++ b.values, a.types ++ b.types⟩

/-- Some scopes together. -/
def all (scopes : List Scope) : Scope := scopes.foldr join {}

end Scope

/-- The names that are bound around the parts of the constructs with scopes of their own. -/
structure Bindings where
  /-- Around the parameters, the result and the body of a function. -/
  function (role : FunctionRole) (name : Option String) (types params body : List Node) : Scope
  /-- Around the parts of a class after its decorators. -/
  klass (declared : Bool) (name : Option String) (types : List Node) : Scope
  /-- Around the statements of a block. -/
  block (body : List Node) : Scope
  /-- Around the clauses of a switch. -/
  cases (clauses : List Node) : Scope
  /-- Around the parts of a loop with the given head. -/
  loop (head : Node) : Scope
  /-- Around what handles an exception. -/
  handler (pattern : Node) (body : List Node) : Scope
  /-- Around the parts of a type with parameters. -/
  signature (types params : List Node) : Scope
  /-- Around the parts of a declared type. -/
  declaration (types : List Node) : Scope
  /-- Around the bound and the first branch of a conditional type. -/
  inferred (bound : Node) : Scope
  /-- Around the members of an enumeration. -/
  members (ms : List Node) : Scope
  /-- Around the statements of a namespace. -/
  space (body : List Node) : Scope

/-- A parser of scripts.  Its readers take the dialect, typed or not, and a text. -/
structure Parser where
  /-- The statements of a module, directives apart. -/
  program? : Bool → String → Option (List Item)
  /-- The expression at the start of a text. -/
  expression? : Bool → String → Option Node
  bindings : Bindings

end Stencil.Script
