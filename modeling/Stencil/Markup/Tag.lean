import Stencil.Text.Chars
import Stencil.Text.Search

/-!
# Tag and attribute names

Which tags are empty by nature, which hold raw text, which are known elements and which are blocks
of control flow; and how an attribute's name is divided into a mark, a name and modifiers.
-/

namespace Stencil.Markup

open Stencil.Text

/-- A block of control flow. -/
inductive BlockKind where
  | ifBlock | elseIf | elseBlock | forBlock | slot | content
  deriving DecidableEq, Repr

/-- The tag of a block. -/
def BlockKind.tag : BlockKind → String
  | .ifBlock => "if"
  | .elseIf => "elseif"
  | .elseBlock => "else"
  | .forBlock => "for"
  | .slot => "slot"
  | .content => "content"

/-- The block with the given tag. -/
def BlockKind.ofTag? (name : String) : Option BlockKind :=
  [BlockKind.ifBlock, .elseIf, .elseBlock, .forBlock, .slot, .content].find? (·.tag == name)

/-- Elements without content. -/
def voidNames : List String :=
  ["area", "base", "br", "col", "embed", "hr", "img", "input", "link", "meta", "param", "source",
   "track", "wbr"]

/-- Elements whose content is not markup. -/
def rawNames : List String := ["script", "style", "template", "textarea"]

/-- Elements in which blanks are significant. -/
def preformattedNames : List String := ["pre", "textarea", "script", "style"]

/-- Elements of hypertext. -/
def hypertextNames : List String :=
  ["html", "head", "body", "title", "base", "link", "meta", "style", "script", "noscript",
   "template", "main", "header", "footer", "nav", "section", "article", "aside", "address", "h1",
   "h2", "h3", "h4", "h5", "h6", "hgroup", "search", "div", "p", "hr", "pre", "blockquote", "ol",
   "ul", "li", "menu", "dl", "dt", "dd", "figure", "figcaption", "a", "em", "strong", "small", "s",
   "cite", "q", "dfn", "abbr", "ruby", "rt", "rp", "data", "time", "code", "var", "samp", "kbd",
   "sub", "sup", "i", "b", "u", "mark", "bdi", "bdo", "span", "br", "wbr", "ins", "del", "picture",
   "source", "img", "iframe", "embed", "object", "param", "video", "audio", "track", "map", "area",
   "canvas", "table", "caption", "colgroup", "col", "tbody", "thead", "tfoot", "tr", "td", "th",
   "form", "label", "input", "button", "select", "datalist", "optgroup", "option", "textarea",
   "output", "progress", "meter", "fieldset", "legend", "details", "summary", "dialog"]

/-- Elements of vector graphics. -/
def graphicsNames : List String :=
  ["svg", "g", "defs", "desc", "symbol", "use", "image", "switch", "path", "rect", "circle",
   "ellipse", "line", "polyline", "polygon", "text", "tspan", "textPath", "marker", "pattern",
   "clipPath", "mask", "filter", "linearGradient", "radialGradient", "stop", "foreignObject",
   "animate", "animateMotion", "animateTransform", "set", "view", "feBlend", "feColorMatrix",
   "feComposite", "feFlood", "feGaussianBlur", "feImage", "feMerge", "feMergeNode",
   "feMorphology", "feOffset", "feTurbulence"]

/-- Whether an element never has content, in any letter case. -/
def isVoid (name : String) : Bool := voidNames.contains (lower name)

/-- Whether the content of an element is not markup, in any letter case. -/
def isRawText (name : String) : Bool := rawNames.contains (lower name)

/-- Whether blanks inside an element are significant, in any letter case. -/
def isPreformatted (name : String) : Bool := preformattedNames.contains (lower name)

/-- Whether the name is that of an element, in this letter case; all others name components. -/
def isKnown (name : String) : Bool := hypertextNames.contains name || graphicsNames.contains name

/-- Whether a closing tag of the second name closes an element of the first. -/
def closes (opened closing : String) : Bool :=
  opened == closing || (isRawText opened && lower opened == lower closing)

/-- The attribute that makes its element a component of its own. -/
def fragmentName : String := "@name"

/-- Marks before the name of an attribute that give it a meaning of its own. -/
def marks : List Char := ['@', ':', '#', '*']

/-- The name of an attribute in its parts. -/
structure AttributeName where
  mark : Option Char := none
  base : String
  /-- What follows from the first dot on. -/
  suffix : Option String := none
  deriving DecidableEq, Repr

/-- The name as it is written. -/
def AttributeName.full (n : AttributeName) : String :=
  (match n.mark with | some c => c.toString | none => "") ++ n.base ++ n.suffix.getD ""

/-- The words of the suffix. -/
def AttributeName.modifiers (n : AttributeName) : List String :=
  match n.suffix with
  | some suffix => ((splitAt '.' suffix.toList).map String.ofList).filter (!·.isEmpty)
  | none => []

/-- The characters up to the first dot that is not the first character, and the rest. -/
def splitSuffix : List Char → List Char × List Char
  | [] => ([], [])
  | c :: rest => (c :: rest.takeWhile (· != '.'), rest.dropWhile (· != '.'))

/-- The name without a mark, in its parts. -/
def AttributeName.unmarked (mark : Option Char) (cs : List Char) : AttributeName :=
  let (base, suffix) := splitSuffix cs
  ⟨mark, String.ofList base, if suffix.isEmpty then none else some (String.ofList suffix)⟩

/-- The parts of a name; a mark alone is a name. -/
def AttributeName.split (name : String) : AttributeName :=
  match name.toList with
  | c :: d :: rest =>
      if marks.contains c then .unmarked (some c) (d :: rest) else .unmarked none (c :: d :: rest)
  | cs => .unmarked none cs

end Stencil.Markup
