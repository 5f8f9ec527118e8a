import Stencil.Component.Analysis
import Stencil.Component.Chain
import Stencil.Component.Imports
import Stencil.Component.Problem
import Stencil.Passes.Blocks
import Stencil.Source.Diagnostic

/-!
# From markup to frames

The markup of a component is walked in document order.  Static markup goes into the frame that is
being filled; what needs a node when the component runs marks the node with a reference and leaves a
spot.
-/

namespace Stencil

open Stencil.Markup Stencil.Render Stencil.Source
open Stencil.Passes (defaultSlot)
open Stencil.Script (Expression Language)

/-- What is collected while the markup of a component is walked. -/
structure Walk where
  component : Component
  imports : Imports
  diagnostics : List Diagnostic := []

/-- What the walk looks up. -/
structure WalkContext where
  lang : Language
  options : Options
  document : Document

namespace Walk

/-- Changes the component. -/
def map (w : Walk) (f : Component → Component) : Walk := { w with component := f w.component }

/-- Adds markup. -/
def html (w : Walk) (text : String) : Walk := w.map (·.pushHtml text)

/-- Adds an expression that reads no name. -/
def constant (w : Walk) (code : String) (raw : Bool) : Walk := w.map (·.pushConstant code raw)

/-- Adds a spot. -/
def spot (w : Walk) (reference : Option Nat) (kind : SpotKind) : Walk :=
  w.map (·.pushSpot reference kind)

/-- Reports a problem. -/
def warn (w : Walk) (p : Component.Problem) (span : Option Span) : Walk :=
  { w with diagnostics := w.diagnostics ++ [.warning p.message span] }

/-- Gives out a reference. -/
def allocate (w : Walk) : Nat × Walk :=
  let (reference, c) := w.component.allocate
  (reference, { w with component := c })

/-- Gives out a reference and marks this place with it. -/
def anchor (w : Walk) : Nat × Walk :=
  let (reference, w) := w.allocate
  (reference, w.html ("<!--ref:" ++ toString reference ++ "-->"))

/-- What some steps put into a frame of their own. -/
def collect (w : Walk) (steps : Walk → Walk) : Frame × Walk :=
  let w := steps (w.map (·.pushFrame))
  let (frame, c) := w.component.popFrame
  (frame, { w with component := c })

end Walk

/-- Whether the nearest tag around a node, blocks apart, is the root of the component; at most a
number of steps up. -/
def reachesRoot (d : Document) (root : Nat) : Nat → Nat → Bool
  | 0, _ => false
  | steps + 1, id =>
      match d.parent? id with
      | none => false
      | some parent =>
          if parent == root then true
          else
            match (d.node parent).type with
            | .block _ => reachesRoot d root steps parent
            | _ => false

/-- Whether an element carries the attribute that confines the style of the component. -/
def isScopeRoot (d : Document) (root id : Nat) : Bool := id == root || reachesRoot d root d.size id

/-- The parts of a value inside an attribute of static markup. -/
def walkValue (w : Walk) : List Part → Walk
  | [] => w
  | .literal text :: rest => walkValue (w.html (Text.attributeText text)) rest
  | .expression e _ :: rest => walkValue (w.constant e.code false) rest

/-- An attribute of static markup. -/
def walkStatic (w : Walk) (a : Attribute) : Walk :=
  match a.value with
  | .empty => w.html (" " ++ a.name.base)
  | .text text _ => w.html (" " ++ a.name.base ++ "=\"" ++ Text.attributeText text ++ "\"")
  | .parts parts _ => (walkValue (w.html (" " ++ a.name.base ++ "=\"")) parts).html "\""

/-- Attributes that are collected while the others of an element are walked. -/
structure Combined where
  classValue : List Part := []
  toggles : List (String × Expression) := []
  styleValue : List Part := []
  properties : List (String × Expression) := []

/-- Whether an element has a modifier attribute of the given name. -/
def hasModifier (e : Element) (base : String) : Bool :=
  e.attributes.any fun a => a.kind == .modifier && a.name.base == base

/-- The bits of the known modifiers of an event; the others are reported. -/
def walkModifiers (w : Walk) (span : Option Span) : List String → Nat × Walk
  | [] => (0, w)
  | name :: rest =>
      match modifierBit? name with
      | some bit =>
          let (bits, w) := walkModifiers w span rest
          (bit ||| bits, w)
      | none => walkModifiers (w.warn (.unknownEventModifier name) span) span rest

/-- A plain attribute. -/
def walkPlain (e : Element) (reference : Option Nat) (a : Attribute) (c : Combined) (w : Walk) :
    Combined × Walk :=
  if a.name.base == "class" && (a.isDynamic || hasModifier e "class") then
    ({ c with classValue := a.parts }, w)
  else if a.name.base == "style" && (a.isDynamic || hasModifier e "style") then
    ({ c with styleValue := a.parts }, w)
  else if a.isDynamic then (c, w.spot reference (.attribute a.name.base a.parts))
  else (c, walkStatic w a)

/-- A modifier attribute. -/
def walkModifier (a : Attribute) (c : Combined) (w : Walk) : Combined × Walk :=
  match a.expression? with
  | none => (c, w.warn (.noValue a.fullName) a.span)
  | some e =>
      let words := a.name.modifiers
      if a.name.base == "class" then
        ({ c with toggles := c.toggles ++ words.map (·, e) }, w)
      else if a.name.base == "style" then
        ({ c with properties := c.properties ++ [(Text.joinWith "." words, e)] }, w)
      else (c, w.warn (.unknownModifierAttribute a.fullName) a.span)

/-- An attribute of an element. -/
def walkAttribute (e : Element) (reference : Option Nat) (c : Combined) (w : Walk) (a : Attribute) :
    Combined × Walk :=
  match a.kind with
  | .plain => walkPlain e reference a c w
  | .modifier => walkModifier a c w
  | .event =>
      match a.expression? with
      | none => (c, w.warn (.noHandler a.fullName) a.span)
      | some handler =>
          let (bits, w) := walkModifiers w a.span a.name.modifiers
          (c, w.spot reference (.event a.name.base handler bits))
  | .bind =>
      match a.expression? with
      | none => (c, w.warn (.noTarget a.fullName) a.span)
      | some target => (c, w.spot reference (.bind a.name.base target))
  | .ref =>
      match a.expression? with
      | none => (c, w.warn (.noTarget a.fullName) a.span)
      | some target => (c, w.spot reference (.ref target))
  | .action => (c, w.spot reference (.action a.name.base a.expression?))

/-- The attributes of an element. -/
def walkAttributes (e : Element) (reference : Option Nat) (w : Walk) : Walk :=
  let (c, w) := e.attributes.foldl (fun (c, w) a => walkAttribute e reference c w a) ({}, w)
  let w := if c.classValue.isEmpty && c.toggles.isEmpty then w
    else w.spot reference (.classes c.classValue c.toggles)
  if c.styleValue.isEmpty && c.properties.isEmpty then w
  else w.spot reference (.styles c.styleValue c.properties)

/-- The parts of a text. -/
def walkParts (w : Walk) : List Part → Walk
  | [] => w
  | .literal text :: rest => walkParts (w.html text) rest
  | .expression e html :: rest =>
      if e.isStatic then walkParts (w.constant e.code html) rest
      else
        let (reference, w) := w.anchor
        walkParts (w.spot (some reference) (.text e html)) rest

/-- A text. -/
def walkText (w : Walk) : TextContent → Walk
  | .raw text => w.html text
  | .parts parts => walkParts w parts

/-- A script that runs on the target. -/
def walkScript (x : WalkContext) (n : Node) (w : Walk) : Walk :=
  if runsOn n.params.target x.options.target then
    match n.params.script with
    | none => w
    | some parts =>
        let imports := parts.imports.foldl (·.add x.lang · parts.typescript) w.imports
        let c := { w.component with exports := w.component.exports ++ parts.exports }
        { w with imports, component := c.addScript parts.statements }
  else w

/-- How a single node is walked. -/
abbrev Visitor := Nat → Walk → Walk

/-- The blocks of a chain of conditions, each into a frame of its own. -/
def walkBranches (d : Document) (children : Visitor) : List Nat → Walk → List Branch × Walk
  | [], w => ([], w)
  | id :: rest, w =>
      let condition := match (d.node id).params.block with
        | some (.condition e) => some e
        | _ => none
      let (body, w) := w.collect (children id)
      let (branches, w) := walkBranches d children rest w
      (.mk condition body :: branches, w)

/-- A chain of conditions. -/
def walkChain (d : Document) (children : Visitor) (ids : List Nat) (w : Walk) : Walk :=
  let (reference, w) := w.anchor
  let (branches, w) := walkBranches d children ids w
  w.spot (some reference) (.conditional branches)

/-- An element with its content. -/
def walkElement (x : WalkContext) (children : Visitor) (id : Nat) (w : Walk) : Walk :=
  let n := x.document.node id
  match n.element? with
  | none => w
  | some e =>
      let needed := n.params.reference || e.attributes.any Attribute.needsReference
      let (reference, w) := if needed then
          let (r, w) := w.allocate
          (some r, w)
        else (none, w)
      let w := w.html ("<" ++ e.name)
      let w := if isScopeRoot x.document w.component.root id then
          match w.component.styleHash with
          | some hash => w.html (" " ++ Style.scopeAttribute ++ "=\"" ++ hash ++ "\"")
          | none => w
        else w
      let w := match reference with
        | some r => w.html (" data-ref=\"" ++ toString r ++ "\"")
        | none => w
      let w := (walkAttributes e reference w).html ">"
      if isVoid e.name then w
      else
        let w := match e.raw with
          | some raw => w.html raw
          | none => children id w
        w.html ("</" ++ e.name ++ ">")

/-- A loop. -/
def walkLoop (d : Document) (children : Visitor) (id : Nat) (w : Walk) : Walk :=
  match (d.node id).params.block with
  | some (.loop header) =>
      let (reference, w) := w.anchor
      let (body, w) := w.collect (children id)
      w.spot (some reference) (.each header body)
  | _ => w

/-- The name of the slot that a node is or fills. -/
def slotOf (n : Node) : String :=
  match n.params.block with
  | some (.slot name) => name
  | _ => defaultSlot

/-- A slot with the content it has if it is not filled. -/
def walkSlot (d : Document) (children : Visitor) (id : Nat) (w : Walk) : Walk :=
  let (reference, w) := w.anchor
  let (body, w) := w.collect (children id)
  let fallback := if body.isEmpty then none else some body
  w.spot (some reference) (.slot (slotOf (d.node id)) fallback)

/-- The properties that a component is given. -/
def walkProperties (component : String) (reference : Nat) :
    List Attribute → Walk → List Property × Walk
  | [], w => ([], w)
  | a :: rest, w =>
      let keep (p : Property) (w : Walk) : List Property × Walk :=
        let (props, w) := walkProperties component reference rest w
        (p :: props, w)
      match a.kind, a.expression? with
      | .plain, _ => keep (.value a.name.base a.parts) w
      | .event, some handler => keep (.event a.name.base handler) w
      | .bind, some target => keep (.bind a.name.base target) w
      | .ref, some target =>
          walkProperties component reference rest (w.spot (some reference) (.ref target))
      | _, _ =>
          walkProperties component reference rest
            (w.warn (.unsupported a.fullName component) a.span)

/-- The children of an invoked component: blocks that fill a slot into frames of their own, all
others into the frame that is being filled. -/
def walkContents (d : Document) (self children : Visitor) : List Nat → Walk → List SlotBody × Walk
  | [], w => ([], w)
  | id :: rest, w =>
      let n := d.node id
      if n.type == .block .content then
        let (body, w) := w.collect (children id)
        let (slots, w) := walkContents d self children rest w
        (.mk (slotOf n) body :: slots, w)
      else walkContents d self children rest (self id w)

/-- The invocation of a component. -/
def walkInvocation (d : Document) (self children : Visitor) (id : Nat) (w : Walk) : Walk :=
  match (d.node id).element? with
  | none => w
  | some e =>
      let (reference, w) := w.anchor
      let (props, w) := walkProperties e.name reference e.attributes w
      let w := w.map (·.pushFrame)
      let (slots, w) := walkContents d self children (d.children id) w
      let (default, c) := w.component.popFrame
      let w := { w with component := c }
      let slots := if default.isEmpty then slots else .mk defaultSlot default :: slots
      w.spot (some reference) (.invoke e.name props slots)

mutual

/-- A node and what is below it, down to a number of steps. -/
def walkNode (x : WalkContext) : Nat → Visitor
  | 0, _, w => w
  | steps + 1, id, w =>
      let d := x.document
      let n := d.node id
      let children := walkChildren x steps
      match n.type with
      | .document => children id w
      | .element => walkElement x children id w
      | .fragment => w
      | .component => walkInvocation d (walkNode x steps) children id w
      | .script => walkScript x n w
      | .style => w
      | .text =>
          match n.content with
          | .text content => walkText w content
          | _ => w
      | .comment =>
          match n.content with
          | .comment content => w.html ("<!--" ++ content ++ "-->")
          | _ => w
      | .block .ifBlock => walkChain d children [id] w
      | .block .forBlock => walkLoop d children id w
      | .block .slot => walkSlot d children id w
      | .block .content => children id (w.warn .strayContent n.span)
      | .block kind => w.warn (.withoutIf kind) n.span

/-- The children of a node and what is below them; blocks of a chain are taken together. -/
def walkChildren (x : WalkContext) : Nat → Visitor
  | 0, _, w => w
  | steps + 1, id, w =>
      let d := x.document
      (groups d (d.children id)).foldl (fun w g =>
        match g with
        | .single child => walkNode x steps child w
        | .chain ids => walkChain d (walkChildren x steps) ids w) w

end

/-- The style of a component as markup, if it goes into the markup. -/
def injectedStyle (o : Options) (c : Component) : String :=
  match o.css.placement, c.styleHash with
  | .injected, some hash =>
      let css := c.scopedStyle
      if css.isEmpty then ""
      else "<style " ++ Style.scopeAttribute ++ "=\"" ++ hash ++ "\">" ++ css ++ "</style>"
  | _, _ => ""

/-- Walks the whole markup of a component. -/
def walkComponent (x : WalkContext) (w : Walk) : Walk :=
  let w := w.html (injectedStyle x.options w.component)
  let root := w.component.root
  let children := walkChildren x (2 * x.document.size + 2)
  if root == 0 then children root w else walkElement x children root w

end Stencil
