import Stencil.Script.Fault
import Stencil.Script.Parser
import Stencil.Text.Chars
import Stencil.Text.Offset
import Stencil.Text.Search

/-!
# Normal form of imports

Two imports that differ in quotes, blanks and comments only are one import.  `normalize` prints the
statements of a module so that such imports come out alike.
-/

namespace Stencil.Script

open Stencil.Text

/-- Two hexadecimal digits of a number below 256, in capitals. -/
def twoHex (n : Nat) : List Char :=
  [(Nat.digitChar (n / 16)).toUpper, (Nat.digitChar (n % 16)).toUpper]

/-- The characters of a string in double quotes. -/
def quotedChars : List Char → List Char
  | [] => []
  | c :: rest =>
      let piece := match c with
        | '"' => ['\\', '"']
        | '\\' => ['\\', '\\']
        | '\n' => ['\\', 'n']
        | '\r' => ['\\', 'r']
        | '\x08' => ['\\', 'b']
        | '\x0b' => ['\\', 'v']
        | '\x0c' => ['\\', 'f']
        | '\x00' => if rest.head?.any isDigit then ['\\', 'x', '0', '0'] else ['\\', '0']
        | '\x07' => '\\' :: 'x' :: twoHex 7
        | '\x1b' => '\\' :: 'x' :: twoHex 27
        | '\u00a0' => '\\' :: 'x' :: twoHex 160
        | '\u2028' => "\\u2028".toList
        | '\u2029' => "\\u2029".toList
        | '<' => if (rest.take 7).map lowerChar == "/script".toList then ['<', '\\'] else ['<']
        | c => [c]
      piece ++ quotedChars rest

/-- A string in double quotes. -/
def quotedText (text : String) : String :=
  "\"" ++ String.ofList (quotedChars text.toList) ++ "\""

/-- A module name as it is printed. -/
def ModuleName.print : ModuleName → String
  | .word text => text
  | .quoted text => quotedText text

/-- A name in the braces of an import. -/
def ImportName.print (n : ImportName) : String :=
  (if n.typeOnly then "type " else "") ++ n.imported.print ++
    (if n.imported.text == n.localName then "" else " as " ++ n.localName)

/-- Texts in braces with blanks inside, or nothing inside the braces. -/
def inBraces (texts : List String) : String :=
  if texts.isEmpty then "\x7b\x7d" else "\x7b " ++ joinWith ", " texts ++ " \x7d"

/-- The bindings of an import; an empty pair of braces is printed only if nothing else is bound. -/
def Import.bindings (i : Import) : List String :=
  let starred := i.namespaceName.map ("* as " ++ ·)
  let braced := match i.names with
    | none => none
    | some [] => if i.defaultName.isSome then none else some (inBraces [])
    | some names => some (inBraces (names.map ImportName.print))
  i.defaultName.toList ++ starred.toList ++ braced.toList

/-- The attributes of an import. -/
def Import.attributeText (i : Import) : String :=
  match i.attributes with
  | none => ""
  | some (word, entries) =>
      " " ++ word ++ " " ++ inBraces (entries.map fun (key, value) =>
        key.print ++ ": " ++ quotedText value)

/-- An import as it is printed. -/
def Import.print (i : Import) : String :=
  let words := (if i.typeOnly then ["type"] else []) ++ i.phase.toList
  let bindings := i.bindings
  let middle := if bindings.isEmpty then [] else words ++ [joinWith ", " bindings, "from"]
  joinWith " " (["import"] ++ middle ++ [quotedText i.source]) ++ i.attributeText ++ ";"

/-- Prints a text that is a module, one statement on a line. -/
def normalize (p : Parser) (typescript : Bool) (text : String) : Except Fault String :=
  match p.program? typescript text with
  | none => .error .invalidScript
  | some items =>
      .ok (joinWith "\n" (items.map fun i =>
        match i.node with
        | .importing clause => clause.print
        | .empty => ";"
        | _ => String.ofList ((slice? i.start i.stop text.toList).getD [])))

end Stencil.Script
