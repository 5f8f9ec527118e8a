import Stencil.Text.Search
import Stencil.Text.Trim

/-!
# Selectors

Selector lists are split at commas outside brackets and strings.  A selector is split into
compounds, each with the combinator that follows it, and confined to a component by an attribute:
once on an element around it and once on its first compound.
-/

namespace Stencil.Style

open Stencil.Text

/-- What a scan of a selector is inside of. -/
structure Nest where
  depth : Int := 0
  quote : Option Char := none

namespace Nest

/-- Whether neither brackets nor a string are open. -/
def isTop (n : Nest) : Bool := n.depth == 0 && n.quote.isNone

/-- The state after a character. -/
def step (n : Nest) (c : Char) : Nest :=
  match n.quote with
  | some q => if c == q then { n with quote := none } else n
  | none =>
      if c == '"' || c == '\'' then { n with quote := some c }
      else if c == '(' || c == '[' then { n with depth := n.depth + 1 }
      else if c == ')' || c == ']' then { n with depth := n.depth - 1 }
      else n

end Nest

/-- The pieces of a text between the commas outside brackets and strings. -/
def commaPieces (n : Nest) : List Char → List (List Char)
  | [] => [[]]
  | c :: rest =>
      if c == ',' && n.isTop then [] :: commaPieces n rest
      else
        match commaPieces (n.step c) rest with
        | [] => [[c]]
        | piece :: pieces => (c :: piece) :: pieces

/-- The selectors of a list, without blanks around them. -/
def splitSelectors (text : String) : List String :=
  ((commaPieces {} text.toList).map fun piece => String.ofList (trimList piece)).filter (!·.isEmpty)

/-- A compound selector and the combinator after it. -/
structure Compound where
  text : List Char
  combinator : List Char
  deriving DecidableEq, Repr

/-- The text of some compounds with their combinators. -/
def Compound.join (cs : List Compound) : List Char := cs.flatMap fun c => c.text ++ c.combinator

/-- Whether the character is a combinator outside brackets and strings. -/
def isCombinator (c : Char) : Bool := isBlank c || c == '>' || c == '+' || c == '~'

/-- The compounds of a selector; `text` and `combinator` hold the last one so far, reversed. -/
def compoundsFrom (n : Nest) (text combinator : List Char) : List Char → List Compound
  | [] => [⟨text.reverse, combinator.reverse⟩]
  | c :: rest =>
      if n.isTop && isCombinator c then compoundsFrom n text (c :: combinator) rest
      else if n.quote.isNone && !combinator.isEmpty then
        ⟨text.reverse, combinator.reverse⟩ :: compoundsFrom (n.step c) [c] [] rest
      else compoundsFrom (n.step c) (c :: text) combinator rest

/-- The compounds of a selector. -/
def compounds (selector : List Char) : List Compound := compoundsFrom {} [] [] (trimList selector)

/-- Compounds that stand for the document itself. -/
def rootCompounds : List String := [":root", "html", "body"]

/-- Whether a compound stands for the document itself, possibly with further conditions. -/
def isRoot (compound : List Char) : Bool :=
  rootCompounds.any fun base =>
    let base := base.toList
    base.isPrefixOf compound &&
      match compound.drop base.length with
      | [] => true
      | c :: _ => c == '.' || c == '[' || c == '#' || c == ':'

/-- Pseudo-elements that are also written with a single colon. -/
def shortPseudoElements : List String := [":before", ":after", ":first-line", ":first-letter"]

/-- The number of characters before the first place of a text. -/
def indexOf? (needle : String) (text : List Char) : Option Nat :=
  (breakOn needle.toList text).map fun (before, _) => before.length

/-- The least of some numbers. -/
def least? : List Nat → Option Nat
  | [] => none
  | n :: rest =>
      match least? rest with
      | some m => some (min n m)
      | none => some n

/-- The number of characters of a compound before its pseudo-element. -/
def pseudoElement? (compound : List Char) : Option Nat :=
  match indexOf? "::" compound with
  | some at_ => some at_
  | none => least? (shortPseudoElements.filterMap (indexOf? · compound))

/-- The compound with an attribute before its pseudo-element, or at its end. -/
def attach (compound scope : List Char) : List Char :=
  match pseudoElement? compound with
  | some n => compound.take n ++ scope ++ compound.drop n
  | none => compound ++ scope

/-- The text with every `:global(…)` replaced by what stands in its parentheses. -/
def openGlobals (cs : List Char) : List Char :=
  match h : breakOn ":global(".toList cs with
  | none => cs
  | some (before, after) =>
      match h' : breakOn [')'] after with
      | none => cs
      | some (inner, rest) =>
          have : rest.length < cs.length := length_lt_of_breakOn_breakOn (by decide) h h'
          before ++ inner ++ openGlobals rest
termination_by cs.length

/-- Whether a selector has a complete `:global(…)`. -/
def hasGlobal (cs : List Char) : Bool :=
  match breakOn ":global(".toList cs with
  | some (_, after) => after.contains ')'
  | none => false

/-- The forms of a selector that are confined by an attribute. -/
def scopeChars (selector scope : List Char) : List (List Char) :=
  if hasGlobal selector then [trimList (openGlobals selector)]
  else
    let parts := compounds selector
    let roots := parts.takeWhile fun c => isRoot c.text
    match parts.dropWhile fun c => isRoot c.text with
    | [] => [trimList selector]
    | first :: others =>
        let before := Compound.join roots
        [before ++ scope ++ ' ' :: trimEndList (Compound.join (first :: others)),
         trimEndList (before ++ attach first.text scope ++ first.combinator ++
           Compound.join others)]

/-- The forms of a selector that are confined by an attribute. -/
def scopeSelector (selector scope : String) : List String :=
  (scopeChars selector.toList scope.toList).map String.ofList

end Stencil.Style
