import Stencil.Markup.Blank
import Stencil.Markup.Scan
import Stencil.Source.Diagnostic
import Stencil.Text.Trim

/-!
# From tokens to a document

Open elements are kept on a stack.  A closing tag closes the innermost element of its name and
reports those it leaves open inside; whatever the source, a document results.
-/

namespace Stencil.Markup

open Stencil.Source

/-- What matters for reading markup. -/
structure Settings where
  /-- Whether the names of attributes are divided. -/
  affix : Bool
  /-- Whether runs of blanks are kept. -/
  keepBlanks : Bool
  trim : Bool
  comments : Bool
  index : Bool
  loc : Bool
  deriving DecidableEq, Repr

end Stencil.Markup

namespace Stencil

/-- The options that matter for reading markup. -/
def Options.markup (o : Options) : Markup.Settings :=
  { affix := o.attributes.affix
    keepBlanks := o.text.whitespace
    trim := o.text.trim
    comments := o.text.comments
    index := o.position.index
    loc := o.position.loc }

namespace Markup

open Stencil.Source

/-- A document under construction. -/
structure Builder where
  document : Document := .empty
  /-- The open elements, the innermost first. -/
  stack : List Nat := []
  /-- Whether a token was met that makes a node, kept or not. -/
  produced : Bool := false
  diagnostics : List Diagnostic := []

/-- What the builder looks up. -/
structure Context where
  settings : Settings
  lines : Lines

/-- The position of a node, as far as it is asked for. -/
def Context.position (c : Context) (start stop : Nat) : Option Position :=
  if c.settings.index || c.settings.loc then
    some { start := if c.settings.index then some start else none
           stop := if c.settings.index then some stop else none
           loc := if c.settings.loc then some (c.lines.span start stop) else none }
  else none

/-- A finding as a diagnostic. -/
def Context.diagnostic (c : Context) (f : Finding) : Diagnostic :=
  .error f.problem.message (some (c.lines.span f.start f.stop))

namespace Builder

/-- The innermost open element, or the root. -/
def parent (b : Builder) : Nat := b.stack.headD 0

/-- The builder with a problem reported. -/
def report (b : Builder) (d : Diagnostic) : Builder :=
  { b with diagnostics := b.diagnostics ++ [d] }

/-- Whether a preformatted element is open. -/
def isPreformatted (b : Builder) : Bool := b.stack.any fun id => (b.document.node id).isPreformatted

/-- The builder with a node added to the innermost open element. -/
def add (b : Builder) (n : Node) : Builder :=
  { b with document := b.document.append b.parent n, produced := true }

/-- The text at the end of the innermost open element, if undivided text is there. -/
def lastText? (b : Builder) : Option (Nat × String) :=
  match (b.document.children b.parent).getLast? with
  | some id =>
      match (b.document.node id).content with
      | .text (.raw text) => some (id, text)
      | _ => none
  | none => none

/-- Adds text, joined to text that is there already. -/
def addText (c : Context) (b : Builder) (text : String) (start stop : Nat) : Builder :=
  let tidy := if c.settings.keepBlanks || b.isPreformatted then id else collapse
  let text := tidy text
  match b.lastText? with
  | some (last, before) =>
      let widen (p : Position) : Position :=
        if c.settings.index then { p with stop := some stop } else p
      let change (n : Node) : Node :=
        { n with content := .text (.raw (tidy (before ++ text))), position := n.position.map widen }
      { b with document := b.document.update last change, produced := true }
  | none => b.add { Node.ofText text with position := c.position start stop }

/-- Adds a comment, or only notes it. -/
def addComment (c : Context) (b : Builder) (content : String) (start stop : Nat) : Builder :=
  if c.settings.comments then
    b.add { Node.ofComment content with position := c.position start stop }
  else { b with produced := true }

/-- The attribute of a token. -/
def attributeOf (c : Context) (t : AttributeToken) : Attribute :=
  { name := if c.settings.affix then .split t.name else { base := t.name }
    value := match t.value with
      | some (text, quote) => .text text quote
      | none => .empty
    raw := t.raw
    position := c.position t.start t.stop }

/-- Opens an element. -/
def openElement (c : Context) (b : Builder) (name : String) (attributes : List AttributeToken)
    (selfClosing : Bool) (start stop : Nat) : Builder :=
  let empty := selfClosing || isVoid name
  let element : Element :=
    { name, empty, selfClosing, attributes := attributes.map (attributeOf c) }
  let id := b.document.size
  let b := b.add { Node.ofElement element with position := c.position start stop }
  if empty then b else { b with stack := id :: b.stack }

/-- The name of an open element. -/
def nameOf (b : Builder) (id : Nat) : String :=
  match (b.document.node id).element? with
  | some e => e.name
  | none => ""

/-- The builder after reporting open elements that have no closing tag. -/
def reportUnclosed (b : Builder) (ids : List Nat) : Builder :=
  ids.foldl (fun b id => b.report (.error (Problem.unclosed (b.nameOf id)).message none)) b

/-- The position of an element that ends at an offset. -/
def endAt (c : Context) (stop : Nat) (p : Position) : Position :=
  { p with
    stop := if c.settings.index then some stop else p.stop
    loc := p.loc.map fun s => { s with stop := c.lines.location stop } }

/-- Closes the innermost element that a closing tag fits. -/
def closeElement (c : Context) (b : Builder) (name : String) (start stop : Nat) : Builder :=
  let inner := b.stack.takeWhile fun id => !(closes (b.nameOf id) name)
  match b.stack.dropWhile fun id => !(closes (b.nameOf id) name) with
  | [] =>
      if isVoid name then b else b.report (c.diagnostic ⟨.unexpectedClosing name, start, stop⟩)
  | id :: outer =>
      let b := b.reportUnclosed inner
      let change (n : Node) : Node := { n with position := n.position.map (endAt c stop) }
      { b with document := b.document.update id change, stack := outer }

/-- Takes in one token. -/
def step (c : Context) (b : Builder) (t : Token) : Builder :=
  match t.lexeme with
  | .text text => b.addText c text t.start t.stop
  | .comment content => b.addComment c content t.start t.stop
  | .opening name attributes selfClosing =>
      b.openElement c name attributes selfClosing t.start t.stop
  | .raw text =>
      let change (e : Element) : Element := { e with raw := some text }
      { b with document := b.document.update b.parent (Node.mapElement change) }
  | .closing name => b.closeElement c name t.start t.stop

/-- The document and all diagnostics, once every token has been taken in. -/
def finish (c : Context) (b : Builder) (source : String) : Document × List Diagnostic :=
  let b := b.reportUnclosed b.stack
  let document := if c.settings.trim then b.document.trimBlanks else b.document
  let b := if b.produced || Text.isSpaces source then b
    else b.report (c.diagnostic ⟨.noNodes, 0, source.utf8ByteSize⟩)
  (document, b.diagnostics)

end Builder

/-- Reads a template as a document, with the problems of its markup. -/
def parse (s : Settings) (source : String) : Document × List Diagnostic :=
  let c : Context := ⟨s, .of source⟩
  let (tokens, findings) := scan source
  let b : Builder := { diagnostics := findings.map c.diagnostic }
  (tokens.foldl (Builder.step c) b).finish c source

end Markup

end Stencil
