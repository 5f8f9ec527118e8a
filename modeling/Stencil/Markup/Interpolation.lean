import Stencil.Markup.Brace
import Stencil.Markup.Node
import Stencil.Text.Search
import Stencil.Text.Trim

/-!
# Interpolation

A text is divided into literal text and the expressions that stand in braces.  Braces around nothing
and a brace that is never closed are literal text, and so is the value of a literal expression.
-/

namespace Stencil.Markup

open Stencil.Text Stencil.Script

/-- A text around its first span in braces. -/
structure BraceCut where
  before : List Char
  inner : List Char
  rest : List Char

/-- The first span in braces; there is none if the first brace is never closed. -/
def cutBrace? (cs : List Char) : Option BraceCut :=
  match braceSpan (cs.dropWhile (· != '\x7b')) with
  | some (inner, rest) => some ⟨cs.takeWhile (· != '\x7b'), inner, rest⟩
  | none => none

/-- Nothing is lost around a span in braces. -/
theorem cutBrace?_eq {cs : List Char} {b : BraceCut} (h : cutBrace? cs = some b) :
    cs = b.before ++ '\x7b' :: (b.inner ++ '\x7d' :: b.rest) := by
  unfold cutBrace? at h
  split at h
  · next hs =>
      rw [Option.some.injEq] at h
      subst h
      rw [← braceSpan_eq hs]
      exact (List.takeWhile_append_dropWhile).symm
  · simp at h

/-- What follows a span in braces is shorter than the text. -/
theorem length_cutBrace? {cs : List Char} {b : BraceCut} (h : cutBrace? cs = some b) :
    b.rest.length < cs.length := by
  rw [cutBrace?_eq h]
  simp
  omega

/-- The word that marks an expression whose value is markup. -/
def htmlMarker : String := "@html"

/-- Whether the inside of braces starts with the marker, and the expression after it. -/
def splitMarker (inner : List Char) : Bool × List Char :=
  let marker := htmlMarker.toList
  let trimmed := trimStartList inner
  let rest := trimmed.drop marker.length
  if marker.isPrefixOf trimmed && rest.head?.any isBlank then (true, rest) else (false, inner)

/-- A literal part, unless it would be empty. -/
def literalPart (text : List Char) : List Part :=
  if text.isEmpty then [] else [.literal (String.ofList text)]

/-- The parts of a text after some literal text. -/
def splitFrom (read : String → Except Fault Expression) (literal cs : List Char) :
    Except Fault (List Part) :=
  match h : cutBrace? cs with
  | none => .ok (literalPart (literal ++ cs))
  | some b =>
      have := length_cutBrace? h
      let literal := literal ++ b.before
      if b.inner.all isSpace then splitFrom read (literal ++ '\x7b' :: b.inner ++ ['\x7d']) b.rest
      else
        let (html, code) := splitMarker b.inner
        match read (String.ofList code) with
        | .error f => .error f
        | .ok e =>
            match e.literal, html with
            | some folded, false => splitFrom read (literal ++ folded.toList) b.rest
            | _, _ =>
                match splitFrom read [] b.rest with
                | .error f => .error f
                | .ok parts => .ok (literalPart literal ++ .expression e html :: parts)
termination_by cs.length

/-- The parts of a text, its expressions read by `read`. -/
def interpolate (read : String → Except Fault Expression) (text : String) :
    Except Fault (List Part) := splitFrom read [] text.toList

/-- Whether some braces in the text hold more than blanks. -/
def holdsExpression (cs : List Char) : Bool :=
  match h : cutBrace? cs with
  | none => false
  | some b =>
      have := length_cutBrace? h
      !b.inner.all isSpace || holdsExpression b.rest
termination_by cs.length

/-- Whether the text has an expression in braces. -/
def hasInterpolation (text : String) : Bool := holdsExpression text.toList

end Stencil.Markup
