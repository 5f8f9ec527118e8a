import Stencil.Render.Scope

/-!
# Code for the server

A render function adds its markup to a string, block by block, and what belongs to the spots in
between.
-/

namespace Stencil.Render.Server

open Stencil.Markup Stencil.Text

/-- A statement that adds to the markup. -/
def add (code : String) : Command := .line ("$html += " ++ code ++ ";")

/-- The blocks from a number on, with the code of the spots at their positions between them. -/
def interleave (index : Nat) : List Block → List (Nat × List Command) → List Command
  | [], spots => spots.flatMap Prod.snd
  | b :: blocks, spots =>
      let here := spots.takeWhile (·.1 ≤ index)
      here.flatMap Prod.snd ++ add b.code ::
        interleave (index + 1) blocks (spots.dropWhile (·.1 ≤ index))

/-- A render function's statements around those that add to the markup. -/
def withHtml (statements : List Command) : List Command :=
  .line "let $html = \"\";" :: statements ++ [.line "return $html;"]

/-- The statements for a spot inside which nothing else is rendered. -/
def additions : SpotKind → List Command
  | .text e html => [add ("$." ++ (if html then "raw" else "escape") ++ "(" ++ e.code ++ ")")]
  | .script statements => statements.map .statement
  | .classes value toggles => [add ("$.class(" ++ combinedList value toggles ++ ")")]
  | .styles value properties => [add ("$.style(" ++ combinedList value properties ++ ")")]
  | .attribute name value => [add ("$.attr(" ++ quote name ++ ", " ++ partsValue value ++ ")")]
  | .bind property bound => [add ("$.attr(" ++ quote property ++ ", " ++ bound.code ++ ")")]
  | .event _ _ _ | .ref _ | .action _ _ => []
  | .conditional _ | .each _ _ | .slot _ _ | .invoke _ _ _ => []

mutual

/-- Prints the statements that add a frame to the markup. -/
def renderStatements : Frame → Rendering (List Command)
  | .mk blocks spots _ => return interleave 0 blocks (← renderSpots spots)

/-- Prints the code of some spots, each with its position. -/
def renderSpots : List Spot → Rendering (List (Nat × List Command))
  | [] => return []
  | .mk _ position kind :: rest => do
      let commands ← renderKind kind
      let others ← renderSpots rest
      return (position, commands) :: others

/-- Prints the code of a spot. -/
def renderKind : SpotKind → Rendering (List Command)
  | .conditional branches => do
      let commands ← renderBranches true branches
      return commands ++ if branches.isEmpty then [] else [.line "\x7d"]
  | .each header frame => do
      let reactive := isReactive (← get) header.iterable
      let commands ← withLoopScope header reactive (renderStatements frame)
      return .line ("for (const [" ++ header.item ++ ", " ++ header.index.getD "$index" ++
          "] of $.iterate(" ++ header.iterable.code ++ ")) \x7b") ::
        indented ((header.guard.map fun g =>
          Command.line ("if (!(" ++ g.code ++ ")) continue;")).toList ++ commands) ++ [.line "\x7d"]
  | .slot name fallback => do
      let head := "$html += $.slot($props, " ++ quote name ++ ", "
      match fallback with
      | some frame =>
          let commands ← renderStatements frame
          return .line (head ++ "() => \x7b") :: indented (withHtml commands) ++ [.line "\x7d);"]
      | none => return [.line (head ++ "null);")]
  | .invoke component props slots => do
      let entries := props.map (propertyEntry (← get))
      if slots.isEmpty then return [add (component ++ "(" ++ objectLiteral entries ++ ")")]
      else
        let commands ← renderSlots slots
        return .line ("$html += " ++ component ++ "(\x7b " ++
            joinWith ", " (entries ++ ["$slots: \x7b"])) ::
          indented commands ++ [.line "\x7d \x7d);"]
  | kind => return additions kind

/-- Prints the branches of a conditional; `first` if none stands before them. -/
def renderBranches (first : Bool) : List Branch → Rendering (List Command)
  | [] => return []
  | .mk condition frame :: rest => do
      let head := match condition with
        | some e => (if first then "if (" else "\x7d else if (") ++ e.code ++ ") \x7b"
        | none => "\x7d else \x7b"
      let commands ← renderStatements frame
      let others ← renderBranches false rest
      return .line head :: indented commands ++ others

/-- Prints the functions for the slots of an invoked component. -/
def renderSlots : List SlotBody → Rendering (List Command)
  | [] => return []
  | .mk name frame :: rest => do
      let commands ← renderStatements frame
      let others ← renderSlots rest
      return .line (propertyKey name ++ ": () => \x7b") :: indented (withHtml commands) ++
        .line "\x7d," :: others

end

/-- Prints the body of a render function. -/
def renderBody (f : Frame) : Rendering (List Command) := return withHtml (← renderStatements f)

end Stencil.Render.Server
