import Stencil.Markup.Document
import Stencil.Render.Client
import Stencil.Render.Server
import Stencil.Style.Flatten
import Stencil.Style.Print

/-!
# Components

What is collected for one component, the root of a template or a named fragment: its frames, its
script and exports, its style, and the names whose values change.  The code of a component is
generated once.
-/

namespace Stencil

open Stencil.Markup Stencil.Render
open Stencil.Script (Expression)

/-- A component under construction. -/
structure Component where
  name : String
  /-- The node that the component is made from: the document or a fragment. -/
  root : Nat
  isDefault : Bool := false
  /-- The number of references that were given out. -/
  references : Nat := 0
  /-- The frame of the component itself. -/
  base : Frame := .empty
  /-- The frames that are being filled inside it, the innermost first. -/
  nested : List Frame := []
  /-- The statements of the first script. -/
  script : Option (List String) := none
  exports : List String := []
  /-- Variables that the scripts declare. -/
  declared : List String := []
  /-- Variables that are declared and also assigned somewhere. -/
  updated : List String := []
  style : Style.Sheet := {}
  styleHash : Option String := none
  /-- Hashes that had to be longer than the shortest. -/
  longerHashes : List String := []
  /-- The code, once it was generated. -/
  generated : Option String := none

namespace Component

/-- Gives out a reference. -/
def allocate (c : Component) : Nat × Component :=
  (c.references, { c with references := c.references + 1 })

/-- The frame that is being filled. -/
def frame (c : Component) : Frame := c.nested.headD c.base

/-- Changes the frame that is being filled. -/
def mapFrame (c : Component) (f : Frame → Frame) : Component :=
  match c.nested with
  | [] => { c with base := f c.base }
  | inner :: outer => { c with nested := f inner :: outer }

/-- Starts to fill a new frame. -/
def pushFrame (c : Component) : Component := { c with nested := .empty :: c.nested }

/-- Ends the innermost frame; the frame of the component itself is never ended. -/
def popFrame (c : Component) : Frame × Component :=
  match c.nested with
  | [] => (.empty, c)
  | inner :: outer => (inner, { c with nested := outer })

/-- Adds markup. -/
def pushHtml (c : Component) (html : String) : Component := c.mapFrame (·.pushHtml html)

/-- Adds an expression that reads no name. -/
def pushConstant (c : Component) (code : String) (raw : Bool) : Component :=
  c.mapFrame (·.pushConstant code raw)

/-- Adds a spot. -/
def pushSpot (c : Component) (reference : Option Nat) (kind : SpotKind) : Component :=
  c.mapFrame (·.pushSpot reference kind)

/-- Adds the statements of a script.  Those of the first run before the markup is built, those of
later ones where they stand. -/
def addScript (c : Component) (statements : List String) : Component :=
  if statements.all Text.isSpaces then c
  else if c.script.isNone then { c with script := some statements }
  else c.pushSpot none (.script statements)

/-- Whether the value of an expression changes. -/
def isReactive (c : Component) (e : Expression) : Bool := Render.isReactive c.updated e

/-- The style before it is confined to the component. -/
def styleText (c : Component) : String := c.style.print

/-- The style confined to the component. -/
def scopedStyle (c : Component) : String :=
  match c.styleHash with
  | some hash => (c.style.scoped hash).print
  | none => ""

/-- The body of the function that renders the component. -/
def renderBody (c : Component) (t : Target) : List Command :=
  match t with
  | .client => (Client.renderBody c.base).commands c.updated
  | .server => (Server.renderBody c.base).commands c.updated

/-- The steps that print the component. -/
def commands (c : Component) (t : Target) : List Command :=
  c.exports.map .statement ++
    .line ("export function " ++ c.name ++ "($props = \x7b\x7d) \x7b") ::
      indented ((c.script.getD []).map .statement ++ c.renderBody t) ++ [.line "\x7d"]

/-- The code of the component. -/
def render (c : Component) (t : Target) : String := (Emitter.start 0 |>.run (c.commands t)).source

/-- The code of the component, generated on the first call only. -/
def generate (c : Component) (t : Target) : String × Component :=
  match c.generated with
  | some code => (code, c)
  | none =>
      let code := c.render t
      (code, { c with generated := some code })

end Component

end Stencil
