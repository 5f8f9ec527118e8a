import Stencil.Markup.Keyword
import Stencil.Markup.Node
import Stencil.Text.Trim

/-!
# Loop headers

`ITERABLE as ITEM[, INDEX] [key KEY] [if GUARD]`.  The first `as` names the item; a later one in the
guard means `&&`.
-/

namespace Stencil.Markup

open Stencil.Text Stencil.Script

/-- The parts of a loop header as texts. -/
structure LoopText where
  iterable : List Char
  bindings : List Char
  key : Option (List Char)
  guard : Option (List Char)

/-- Divides a loop header at its keywords. -/
def LoopText.split? (header : List Char) : Option LoopText :=
  match breakKeyword "as" none header with
  | none => none
  | some (iterable, rest) =>
      match breakKeyword "key" (some 's') rest with
      | some (bindings, keyed) =>
          match breakKeyword "if" (some 'y') keyed with
          | some (key, guard) => some ⟨iterable, bindings, some key, some guard⟩
          | none => some ⟨iterable, bindings, some keyed, none⟩
      | none =>
          match breakKeyword "if" (some 's') rest with
          | some (bindings, guard) => some ⟨iterable, bindings, none, some guard⟩
          | none => some ⟨iterable, rest, none, none⟩

/-- Whether the character belongs to a name in a list of names. -/
def inBinding (c : Char) : Bool := !(c == ',' || isSpace c)

/-- The one or two names of a list of names. -/
def bindingNames? (cs : List Char) : Option (List Char × Option (List Char)) :=
  let cs := trimList cs
  let item := cs.takeWhile inBinding
  if item.isEmpty then none
  else
    match trimStartList (cs.dropWhile inBinding) with
    | [] => some (item, none)
    | ',' :: rest =>
        let index := trimStartList rest
        if !index.isEmpty && index.all inBinding then some (item, some index) else none
    | _ => none

/-- An optional part read by a reader. -/
def readOptional {α β ε : Type} (read : α → Except ε β) : Option α → Except ε (Option β)
  | none => .ok none
  | some a =>
      match read a with
      | .ok b => .ok (some b)
      | .error f => .error f

/-- Reads a loop header, its expressions by `read`. -/
def Loop.parse (read : String → Except Fault Expression) (header : String) : Except Fault Loop :=
  match LoopText.split? header.toList with
  | none => .error (.noItem header)
  | some t => do
      let iterable ← read (String.ofList t.iterable)
      match bindingNames? t.bindings with
      | none => .error (.invalidName (String.ofList (trimList t.bindings)) header)
      | some (item, index) => do
          let item ← parseName (String.ofList item) header
          let index ← readOptional (fun cs => parseName (String.ofList cs) header) index
          let key ← readOptional (fun cs => read (String.ofList cs)) t.key
          let guard ← readOptional (fun cs => read (String.ofList (conjoinFrom none cs))) t.guard
          return { iterable, item, index, key, guard }

end Stencil.Markup
