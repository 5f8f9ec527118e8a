import Stencil.Json
import Stencil.Options.Basic

/-!
# Options written as JSON

A record is read from an object, whose unknown fields are ignored and whose known fields stand at
most once, or from an array, whose elements are the fields in order; what is missing keeps its
default.  A choice is a word, or an object whose only field is that word with the value `null`.
-/

namespace Stencil.Options

/-- A setter for one field of a record: the new record, or `none` if the value has the wrong
kind. -/
abbrev Setter (α : Type) := Json → α → Option α

/-- Reads a record from the fields of an object; `seen` holds the known names met so far. -/
def readFields {α : Type} (setters : List (String × Setter α)) (seen : List String) :
    List (Option String × Json) → α → Option α
  | [], record => some record
  | (none, _) :: _, _ => none
  | (some name, value) :: rest, record =>
      match setters.lookup name with
      | none => readFields setters seen rest record
      | some set =>
          if seen.contains name then none
          else
            match set value record with
            | some record => readFields setters (name :: seen) rest record
            | none => none

/-- Reads a record from the elements of an array. -/
def readElements {α : Type} : List (String × Setter α) → List Json → α → Option α
  | _, [], record => some record
  | [], _ :: _, _ => none
  | (_, set) :: setters, value :: rest, record =>
      match set value record with
      | some record => readElements setters rest record
      | none => none

/-- Reads a record on top of its default. -/
def readRecord {α : Type} (setters : List (String × Setter α)) (default : α) : Json → Option α
  | .object fields => readFields setters [] fields default
  | .array elements => readElements setters elements default
  | _ => none

/-- A truth value. -/
def readBool : Json → Option Bool
  | .bool b => some b
  | _ => none

/-- A text. -/
def readText : Json → Option String
  | .string text => text
  | _ => none

/-- A natural number below 2^64, written without fraction and exponent. -/
def readNat : Json → Option Nat
  | .number text =>
      let cs := text.toList
      if cs.all Text.isDigit then
        let n := cs.foldl (fun n c => 10 * n + (c.toNat - 48)) 0
        if n < UInt64.size then some n else none
      else none
  | _ => none

/-- A choice by its word. -/
def readChoice {α : Type} (ofWord? : String → Option α) : Json → Option α
  | .string (some word) => ofWord? word
  | .object [(some word, .null)] => ofWord? word
  | _ => none

/-- Bounds on hashes. -/
def readBounds : Json → Option HashBounds :=
  readRecord [("min", fun v b => (readNat v).map fun n => { b with min := n }),
    ("max", fun v b => (readNat v).map fun n => { b with max := n })] {}

/-- Options for styles. -/
def readStyle : Json → Option StyleOptions :=
  readRecord [
    ("compile", fun v o =>
      (readChoice StylePlacement.ofWord? v).map fun p => { o with placement := p }),
    ("hash", fun v o => (readBounds v).map fun b => { o with hash := b })] {}

/-- Options for attributes. -/
def readAttribute : Json → Option AttributeOptions :=
  readRecord [("affix", fun v o => (readBool v).map fun b => { o with affix := b })] {}

/-- Options for text and comments. -/
def readTextOptions : Json → Option TextOptions :=
  readRecord [
    ("whitespace", fun v o => (readBool v).map fun b => { o with whitespace := b }),
    ("trim", fun v o => (readBool v).map fun b => { o with trim := b }),
    ("comments", fun v o => (readBool v).map fun b => { o with comments := b })] {}

/-- Options for positions. -/
def readPosition : Json → Option PositionOptions :=
  readRecord [
    ("index", fun v o => (readBool v).map fun b => { o with index := b }),
    ("loc", fun v o => (readBool v).map fun b => { o with loc := b })] {}

/-- Options as a value of JSON. -/
def ofJson? : Json → Option Options :=
  readRecord [
    ("name", fun v o => (readText v).map fun s => { o with name := s }),
    ("generate", fun v o => (readChoice Target.ofWord? v).map fun t => { o with target := t }),
    ("runtime", fun v o => (readText v).map fun s => { o with runtime := s }),
    ("css", fun v o => (readStyle v).map fun s => { o with css := s }),
    ("attribute", fun v o => (readAttribute v).map fun s => { o with attributes := s }),
    ("transform", fun v o => (readTextOptions v).map fun s => { o with text := s }),
    ("position", fun v o => (readPosition v).map fun s => { o with position := s })] {}

/-- Options written as JSON, which must make sense. -/
def parse (text : String) : Except Fault Options :=
  match (Json.parse? text).bind ofJson? with
  | none => .error .unreadable
  | some o =>
      match o.validate with
      | .ok () => .ok o
      | .error f => .error f

end Stencil.Options
