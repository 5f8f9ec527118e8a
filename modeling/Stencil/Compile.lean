import Stencil.Template

/-!
# The compiler

`compile` turns a template into code and a style sheet, with the problems it found on the way.
-/

namespace Stencil

open Stencil.Source
open Stencil.Script (Language)

/-- The version of the compiler. -/
def version : String := "0.1.0"

/-- What the compiler makes of a template. -/
structure Compiled where
  js : String
  css : String
  diagnostics : List Diagnostic
  deriving DecidableEq, Repr

/-- Whether a serious problem was found. -/
def Compiled.hasErrors (c : Compiled) : Bool := Source.hasErrors c.diagnostics

/-- Compiles a template. -/
def compile (lang : Language) (o : Options) (source : String) : Except Error Compiled :=
  match o.validate with
  | .error f => .error (.options f)
  | .ok () =>
      let outcome := parseTemplate lang o source
      match outcome.error with
      | some e => .error e
      | none =>
          let (t, found) := ({ options := o } : Template).addDocument lang outcome.document
          let output := t.generate.1
          .ok { js := output.js, css := output.css, diagnostics := outcome.diagnostics ++ found }

/-- Compiles templates that do not depend on each other, each under the name of its component. -/
def compileAll (lang : Language) (o : Options) (sources : List (String × String)) :
    List (String × Except Error Compiled) :=
  sources.map fun (name, source) => (name, compile lang { o with name } source)

end Stencil
