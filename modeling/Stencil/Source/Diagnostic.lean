import Stencil.Source.Location

/-!
# Diagnostics

Problems that do not stop the compiler.  They are collected in the order in which they are found.
-/

namespace Stencil.Source

/-- How serious a problem is. -/
inductive Level where
  | warning | error
  deriving DecidableEq, Repr

/-- A problem, and where it is if that is known. -/
structure Diagnostic where
  message : String
  span : Option Span
  level : Level
  deriving DecidableEq, Repr

/-- A serious problem. -/
def Diagnostic.error (message : String) (span : Option Span) : Diagnostic := ⟨message, span, .error⟩

/-- A problem that leaves the output usable. -/
def Diagnostic.warning (message : String) (span : Option Span) : Diagnostic :=
  ⟨message, span, .warning⟩

/-- The diagnostic in one line. -/
def Diagnostic.text (d : Diagnostic) : String :=
  let level := match d.level with
    | .warning => "WARNING"
    | .error => "ERROR"
  let place := match d.span with
    | some span => " (" ++ span.start.text ++ ")"
    | none => ""
  level ++ ": " ++ d.message ++ place

/-- Whether a serious problem is among the diagnostics. -/
def hasErrors (found : List Diagnostic) : Bool := found.any (·.level == .error)

end Stencil.Source
