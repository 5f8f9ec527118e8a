import Stencil.Markup.Tag
import Stencil.Markup.Token
import Stencil.Options.Basic
import Stencil.Script.Expression
import Stencil.Script.Parts
import Stencil.Source.Location
import Stencil.Style.Sheet

/-!
# Nodes of a template

What a node of the tree is, and what the passes over the tree add to it: its type, the parts of its
texts and attribute values, the parameters of its block, the parts of its script and its style.
-/

namespace Stencil.Markup

open Stencil.Script (Expression Parts)

/-- A piece of a text or of a value: literal text or an expression in braces. -/
inductive Part where
  | literal (text : String)
  /-- An expression; `html` if its value is markup. -/
  | expression (expression : Expression) (html : Bool)
  deriving DecidableEq, Repr

/-- Whether the value of a part can change. -/
def Part.isDynamic : Part → Bool
  | .literal _ => false
  | .expression e _ => !e.isStatic

/-- Where a node stands in the source, as far as it was asked for. -/
structure Position where
  start : Option Nat := none
  stop : Option Nat := none
  loc : Option Source.Span := none
  deriving DecidableEq, Repr

/-- The value of an attribute. -/
inductive Value where
  | empty
  | text (text : String) (quote : Quote)
  | parts (parts : List Part) (quote : Quote)
  deriving DecidableEq, Repr

/-- What an attribute does. -/
inductive AttributeKind where
  | plain | event | bind | ref | action | modifier
  deriving DecidableEq, Repr

/-- An attribute of an element. -/
structure Attribute where
  name : AttributeName
  value : Value
  kind : AttributeKind := .plain
  /-- The attribute as it is written. -/
  raw : String
  position : Option Position := none
  deriving DecidableEq, Repr

namespace Attribute

/-- A plain attribute without marks. -/
def plain (name : String) (value : Value) : Attribute :=
  { name := { base := name }, value, raw := name }

/-- The name as it is written. -/
def fullName (a : Attribute) : String := a.name.full

/-- The text of the value, if it has not been divided into parts. -/
def text? (a : Attribute) : Option String :=
  match a.value with
  | .text text _ => some text
  | _ => none

/-- The parts of the value, once it has been divided. -/
def parts (a : Attribute) : List Part :=
  match a.value with
  | .parts parts _ => parts
  | _ => []

/-- The value if it is a single expression. -/
def expression? (a : Attribute) : Option Expression :=
  match a.parts with
  | [.expression e _] => some e
  | _ => none

/-- Whether the attribute is a value alone. -/
def isAnonymous (a : Attribute) : Bool := a.name.base.isEmpty && a.name.mark.isNone

/-- Whether the value of the attribute can change. -/
def isDynamic (a : Attribute) : Bool := a.parts.any Part.isDynamic

/-- Whether the element of the attribute is needed when the component runs. -/
def needsReference (a : Attribute) : Bool := a.kind != .plain || a.isDynamic

/-- The span of the attribute, if spans were asked for. -/
def span (a : Attribute) : Option Source.Span := a.position.bind Position.loc

end Attribute

/-- An element. -/
structure Element where
  name : String
  /-- Whether the element has no content and no closing tag. -/
  empty : Bool := false
  selfClosing : Bool := false
  attributes : List Attribute := []
  /-- The content of an element that holds no markup. -/
  raw : Option String := none
  deriving DecidableEq, Repr

/-- The first attribute with the given full name. -/
def Element.attribute? (e : Element) (name : String) : Option Attribute :=
  e.attributes.find? (·.fullName == name)

/-- The content of a text node. -/
inductive TextContent where
  | raw (text : String)
  | parts (parts : List Part)
  deriving DecidableEq, Repr

/-- What a node holds. -/
inductive Content where
  | document
  | element (element : Element)
  | text (text : TextContent)
  | comment (content : String)
  deriving DecidableEq, Repr

/-- What a node is for the passes after the first. -/
inductive NodeType where
  | document | element | component | fragment | script | style
  | block (kind : BlockKind)
  | text | comment
  deriving DecidableEq, Repr

/-- The header of a loop. -/
structure Loop where
  iterable : Expression
  item : String
  index : Option String := none
  key : Option Expression := none
  guard : Option Expression := none
  deriving DecidableEq, Repr

/-- The parameters of a block. -/
inductive BlockParams where
  | condition (expression : Expression)
  | loop (header : Loop)
  | slot (name : String)
  deriving DecidableEq, Repr

/-- What the passes found out about a node. -/
structure Params where
  /-- Whether the node has its final type. -/
  typed : Bool := false
  /-- The name of the component that the node is the root of. -/
  fragment : Option String := none
  /-- Whether the node is needed when the component runs. -/
  reference : Bool := false
  /-- The only target that a script is for. -/
  target : Option Target := none
  typescript : Bool := false
  block : Option BlockParams := none
  script : Option Parts := none
  style : Option Style.Sheet := none
  deriving BEq, Repr

/-- A node of a template. -/
structure Node where
  type : NodeType
  content : Content
  /-- The numbers of the children in order. -/
  children : List Nat := []
  params : Params := {}
  position : Option Position := none
  deriving BEq, Repr

namespace Node

/-- The root of every document. -/
def document : Node := { type := .document, content := .document }

instance : Inhabited Node := ⟨document⟩

/-- A node that holds an element. -/
def ofElement (e : Element) : Node := { type := .element, content := .element e }

/-- A node that holds text. -/
def ofText (text : String) : Node := { type := .text, content := .text (.raw text) }

/-- A node that holds a comment. -/
def ofComment (content : String) : Node := { type := .comment, content := .comment content }

/-- The element that the node holds. -/
def element? (n : Node) : Option Element :=
  match n.content with
  | .element e => some e
  | _ => none

/-- Whether the node is a tag, whatever its type. -/
def isTag (n : Node) : Bool := n.element?.isSome

/-- Whether the node is undivided text of blanks only. -/
def isBlankText (n : Node) : Bool :=
  match n.content with
  | .text (.raw text) => text.toList.all Text.isBlank
  | _ => false

/-- Whether the node is a tag in which blanks are significant. -/
def isPreformatted (n : Node) : Bool := n.element?.any fun e => Markup.isPreformatted e.name

/-- The node with its element changed. -/
def mapElement (f : Element → Element) (n : Node) : Node :=
  match n.content with
  | .element e => { n with content := .element (f e) }
  | _ => n

/-- The span of the node, if spans were asked for. -/
def span (n : Node) : Option Source.Span := n.position.bind Position.loc

end Node

end Stencil.Markup
