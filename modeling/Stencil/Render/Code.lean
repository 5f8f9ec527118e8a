import Stencil.Render.Frame
import Stencil.Text.Search

/-!
# Values as code

How texts, values of attributes and handlers are written in the generated code.
-/

namespace Stencil.Render

open Stencil.Markup Stencil.Text
open Stencil.Script (Expression)

/-- The text of a literal part. -/
def literalOf? : Part → Option String
  | .literal text => some text
  | .expression _ _ => none

/-- A part inside template text. -/
def templatePart : Part → String
  | .literal text => templateText text
  | .expression e _ => "$\x7b" ++ e.code ++ "\x7d"

/-- The value of some parts: the expression itself if there is only one, a string literal if all are
literal, and template text otherwise. -/
def partsValue : List Part → String
  | [] => quote ""
  | [.expression e _] => e.code
  | parts =>
      if parts.all (literalOf? · |>.isSome) then quote (String.join (parts.filterMap literalOf?))
      else "\x60" ++ String.join (parts.map templatePart) ++ "\x60"

/-- Entries in braces. -/
def objectLiteral (entries : List String) : String :=
  if entries.isEmpty then "\x7b\x7d" else "\x7b " ++ joinWith ", " entries ++ " \x7d"

/-- A value and entries that depend on conditions, as the setters of classes and styles take
them. -/
def combinedList (value : List Part) (entries : List (String × Expression)) : String :=
  let base := if value.isEmpty then [] else [partsValue value]
  let pairs := entries.map fun (key, e) => quote key ++ ": " ++ e.code
  let object := if entries.isEmpty then [] else [objectLiteral pairs]
  "[" ++ joinWith ", " (base ++ object) ++ "]"

/-- Code that starts with a brace in parentheses, so that it reads as the result of a function. -/
def wrapObject (code : String) : String :=
  if code.toList.head? == some '\x7b' then "(" ++ code ++ ")" else code

/-- The code, or a function that gives its value again and again. -/
def thunk (code : String) (reactive : Bool) : String :=
  if reactive then "() => " ++ wrapObject code else code

/-- The name of a runtime function, capitalised if it is given functions. -/
def runtimeCall (name : String) (reactive : Bool) : String :=
  match name.toList with
  | c :: rest => if reactive then String.ofList (c.toUpper :: rest) else name
  | [] => name

/-- The parameters of the functions that a loop calls. -/
def loopParams (l : Loop) : String :=
  match l.index with
  | some index => l.item ++ ", " ++ index
  | none => l.item

/-- A handler: the expression if it is a function, and otherwise a function that runs it. -/
def eventHandler (e : Expression) : String :=
  if e.isCallable then e.code else "($event) => \x7b " ++ e.code ++ "; \x7d"

/-- The bit of a modifier of an event. -/
def modifierBit? (name : String) : Option Nat :=
  [("prevent", 1), ("stop", 2), ("once", 4), ("capture", 8), ("passive", 16),
    ("self", 32)].lookup name

/-- The names whose values change. -/
abbrev Reactive := List String

/-- Whether the value of an expression changes with one of the names. -/
def isReactive (names : Reactive) (e : Expression) : Bool := e.dependencies.any names.contains

/-- Whether the value of a part changes with one of the names. -/
def isPartReactive (names : Reactive) : Part → Bool
  | .literal _ => false
  | .expression e _ => isReactive names e

/-- The entry of a property in the object that a component is given. -/
def propertyEntry (names : Reactive) : Property → String
  | .value name value =>
      let key := propertyKey name
      if value.isEmpty then key ++ ": true"
      else if value.any (isPartReactive names) then
        "get " ++ key ++ "() \x7b return " ++ partsValue value ++ "; \x7d"
      else key ++ ": " ++ partsValue value
  | .event name handler => propertyKey ("on" ++ name) ++ ": " ++ eventHandler handler
  | .bind name target =>
      let key := propertyKey name
      "get " ++ key ++ "() \x7b return " ++ target.code ++ "; \x7d, set " ++ key ++ "($value) \x7b " ++
        target.code ++ " = $value; \x7d"

end Stencil.Render
