import Stencil.Markup.Document

/-!
# Printing markup

A document as template text.  Expressions are written in braces, so that the text reads back as the
same tree.
-/

namespace Stencil.Markup

/-- A part as it is written. -/
def Part.print : Part → String
  | .literal text => text
  | .expression e html => "\x7b" ++ (if html then "@html " else "") ++ e.code ++ "\x7d"

/-- Some parts as they are written. -/
def printParts (parts : List Part) : String := String.join (parts.map Part.print)

/-- A text between the quotes of its kind. -/
def Quote.around (quote : Quote) (text : String) : String :=
  match quote with
  | .double => "\"" ++ text ++ "\""
  | .single => "'" ++ text ++ "'"
  | .brace => "\x7b" ++ text ++ "\x7d"
  | .unquoted => text

/-- A name and a value. -/
def printValue (name : String) (quote : Quote) (text : String) : String :=
  (if name.isEmpty then "" else name ++ "=") ++ quote.around text

/-- An attribute as it is written. -/
def Attribute.print (a : Attribute) : String :=
  let name := a.fullName
  match a.value with
  | .empty => name
  | .text text quote => printValue name quote text
  | .parts [.expression e _] .brace => printValue name .brace e.code
  | .parts parts _ => printValue name .double (printParts parts)

/-- The opening tag of an element. -/
def printOpening (e : Element) (fragment : Option String) : String :=
  let name := match fragment with
    | some name => " " ++ fragmentName ++ "=\"" ++ name ++ "\""
    | none => ""
  "<" ++ e.name ++ name ++ String.join (e.attributes.map (" " ++ ·.print)) ++
    (if e.selfClosing then "/>" else ">")

namespace Document

/-- A node as template text, down to a number of levels below it. -/
def printNode (d : Document) : Nat → Nat → String
  | 0, _ => ""
  | levels + 1, id =>
      let n := d.node id
      match n.content with
      | .document => ""
      | .text (.raw text) => text
      | .text (.parts parts) => printParts parts
      | .comment content => "<!--" ++ content ++ "-->"
      | .element e =>
          let opening := printOpening e n.params.fragment
          if e.selfClosing || e.empty then opening
          else
            opening ++ e.raw.getD "" ++ String.join (n.children.map (d.printNode levels)) ++ "</" ++
              e.name ++ ">"

/-- The document as template text. -/
def print (d : Document) : String := String.join ((d.children 0).map (d.printNode d.size))

end Document

end Stencil.Markup
