import Stencil.Component.Visit
import Stencil.Passes.Transform
import Stencil.Style.Hash

/-!
# Templates

The components of one source text and what they share: their imports, and the hashes that confine
their styles.  A hash is the shortest part of the style's digest, within bounds, that no other style
has taken.
-/

namespace Stencil

open Stencil.Markup Stencil.Source
open Stencil.Script (Language)

/-- What is generated from a template. -/
structure Output where
  js : String
  css : String
  deriving DecidableEq, Repr

/-- A template under construction. -/
structure Template where
  options : Options
  imports : Imports := {}
  components : List Component := []
  /-- Hashes with the styles they were taken for, before those were confined. -/
  styles : List (String × String) := []
  /-- What was generated, once it was. -/
  output : Option Output := none

/-- The first characters of a hash. -/
def shortHash (hash : String) (length : Nat) : String := String.ofList (hash.toList.take length)

/-- The first length from a given one on, of so many, at which a style's hash is free or its own. -/
def freeLength? (styles : List (String × String)) (css full : String) (length : Nat) :
    Nat → Option Nat
  | 0 => none
  | more + 1 =>
      match styles.lookup (shortHash full length) with
      | none => some length
      | some owner =>
          if owner == css then some length else freeLength? styles css full (length + 1) more

namespace Template

/-- The least length of a hash. -/
def minLength (t : Template) : Nat := max t.options.css.hash.min 1

/-- The greatest length of a hash. -/
def maxLength (t : Template) : Nat := max t.options.css.hash.max t.minLength

/-- The hash of a style, cut from its digest, and whether it is longer than the shortest.  If every
length is taken, the longest is used all the same. -/
def registerStyle (digest : String → String) (t : Template) (css : String) :
    (String × Bool) × Template :=
  let full := digest css
  match freeLength? t.styles css full t.minLength (t.maxLength - t.minLength + 1) with
  | some length =>
      let hash := shortHash full length
      let styles := if (t.styles.lookup hash).isSome then t.styles else t.styles ++ [(hash, css)]
      ((hash, decide (t.minLength < length)), { t with styles })
  | none => ((shortHash full t.maxLength, true), t)

/-- The first component of the given name. -/
def component? (t : Template) (name : String) : Option Component :=
  t.components.find? (·.name == name)

/-- The component with the hash of its style, if it has any style. -/
def withStyleHash (lang : Language) (t : Template) (c : Component) : Component × Template :=
  let css := c.styleText
  if css.isEmpty then (c, t)
  else
    let ((hash, longer), t) := t.registerStyle (Style.contentHash lang.hash) css
    ({ c with
        longerHashes := if longer then c.longerHashes ++ [hash] else c.longerHashes
        styleHash := some hash }, t)

/-- Adds the component with the given root. -/
def addComponent (lang : Language) (t : Template) (d : Document) (root : Nat) (name : String)
    (isDefault : Bool) : Template × List Diagnostic :=
  let c := ({ name, root, isDefault } : Component).analyze d t.options.target
  let (c, t) := t.withStyleHash lang c
  let w := walkComponent ⟨lang, t.options, d⟩ { component := c, imports := t.imports }
  ({ t with imports := w.imports, components := t.components ++ [w.component] }, w.diagnostics)

/-- Adds the component of a named fragment, unless its name is taken. -/
def addFragment (lang : Language) (d : Document) (state : Template × List Diagnostic) (id : Nat) :
    Template × List Diagnostic :=
  let (t, found) := state
  let n := d.node id
  match n.type, n.params.fragment with
  | .fragment, some name =>
      if (t.component? name).isSome then
        (t, found ++ [.error (Component.Problem.duplicate name).message n.span])
      else
        let (t, more) := t.addComponent lang d id name false
        (t, found ++ more)
  | _, _ => (t, found)

/-- Adds the component of a document and those of its named fragments, in document order. -/
def addDocument (lang : Language) (t : Template) (d : Document) : Template × List Diagnostic :=
  d.walk.foldl (addFragment lang d) (t.addComponent lang d 0 t.options.name true)

/-- The code of all components, with what it imports. -/
def renderCode (t : Template) : String :=
  let imports := ("import * as $ from \"" ++ t.options.runtime ++ "\";") :: t.imports.texts
  let bodies := t.components.map fun c => "\n\n" ++ (c.generate t.options.target).1
  let exported := match t.components.find? (·.isDefault) with
    | some c => "\n\nexport default " ++ c.name ++ ";"
    | none => ""
  Text.joinWith "\n" imports ++ String.join bodies ++ exported ++ "\n"

/-- The styles of the components, one for each hash; `seen` holds the hashes met so far. -/
def renderStyles (seen : List String) : List Component → String
  | [] => ""
  | c :: rest =>
      match c.styleHash with
      | none => renderStyles seen rest
      | some hash =>
          if seen.contains hash then renderStyles seen rest
          else c.scopedStyle ++ renderStyles (hash :: seen) rest

/-- What is generated from the template. -/
def render (t : Template) : Output :=
  { js := t.renderCode
    css := match t.options.css.placement with
      | .external => renderStyles [] t.components
      | .injected => "" }

/-- What is generated from the template, on the first call only. -/
def generate (t : Template) : Output × Template :=
  match t.output with
  | some output => (output, t)
  | none =>
      let output := t.render
      (output, { t with output := some output })

end Template

end Stencil
