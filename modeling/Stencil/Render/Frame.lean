import Stencil.Markup.Node
import Stencil.Text.Quoted
import Stencil.Text.Trim

/-!
# Frames

A frame is what a render function is made of: static markup, cut into blocks where something has to
happen, and the spots where it happens.  A spot remembers how many blocks stand before it.
-/

namespace Stencil.Render

open Stencil.Markup Stencil.Text
open Stencil.Script (Expression)

/-- A piece of static markup. -/
inductive Piece where
  | html (text : String)
  /-- An expression that reads no name; its value is escaped unless `raw`. -/
  | constant (code : String) (raw : Bool)
  deriving DecidableEq, Repr

/-- Static markup between two spots. -/
structure Block where
  pieces : List Piece := []
  deriving DecidableEq, Repr

namespace Block

/-- Pieces with one more at their end; markup that follows markup is joined to it. -/
def pushPiece : List Piece → Piece → List Piece
  | [], p => [p]
  | [.html a], .html b => [.html (a ++ b)]
  | q :: rest, p => q :: pushPiece rest p

/-- The block with a piece at its end. -/
def push (b : Block) (p : Piece) : Block := ⟨pushPiece b.pieces p⟩

/-- Whether the block is blank markup. -/
def isBlank (b : Block) : Bool :=
  b.pieces.all fun p => match p with
    | .html text => isSpaces text
    | .constant _ _ => false

/-- The markup of a piece, if it holds no expression. -/
def htmlOf? : Piece → Option String
  | .html text => some text
  | .constant _ _ => none

/-- A piece inside template text. -/
def templatePiece : Piece → String
  | .html text => templateText text
  | .constant code true => "$\x7b" ++ code ++ "\x7d"
  | .constant code false => "$\x7b$.escape(" ++ code ++ ")\x7d"

/-- The markup as code: a string literal, or template text if it holds expressions. -/
def code (b : Block) : String :=
  if b.pieces.all (htmlOf? · |>.isSome) then quote (String.join (b.pieces.filterMap htmlOf?))
  else "\x60" ++ String.join (b.pieces.map templatePiece) ++ "\x60"

end Block

/-- A property of a component invocation. -/
inductive Property where
  | value (name : String) (value : List Part)
  | event (name : String) (handler : Expression)
  | bind (name : String) (target : Expression)
  deriving DecidableEq, Repr

mutual

/-- What happens at a spot. -/
inductive SpotKind where
  | text (expression : Expression) (html : Bool)
  | script (statements : List String)
  | classes (value : List Part) (toggles : List (String × Expression))
  | styles (value : List Part) (properties : List (String × Expression))
  | attribute (name : String) (value : List Part)
  /-- A handler with the bits of its modifiers. -/
  | event (name : String) (handler : Expression) (modifiers : Nat)
  | bind (property : String) (target : Expression)
  | ref (target : Expression)
  | action (name : String) (params : Option Expression)
  | conditional (branches : List Branch)
  | each (header : Loop) (body : Frame)
  | slot (name : String) (fallback : Option Frame)
  | invoke (component : String) (props : List Property) (slots : List SlotBody)

/-- A branch of a conditional; the last one may have no condition. -/
inductive Branch where
  | mk (condition : Option Expression) (body : Frame)

/-- The content of a slot of an invoked component. -/
inductive SlotBody where
  | mk (name : String) (body : Frame)

/-- A place where something happens: the node it happens at, the number of blocks before it. -/
inductive Spot where
  | mk (reference : Option Nat) (position : Nat) (kind : SpotKind)

/-- Static blocks and spots; `isSealed` if a spot was added after the last block. -/
inductive Frame where
  | mk (blocks : List Block) (spots : List Spot) (isSealed : Bool)

end

instance : Inhabited SpotKind := ⟨.script []⟩

/-- The condition of a branch. -/
def Branch.condition : Branch → Option Expression
  | .mk condition _ => condition

/-- The node that a spot is about. -/
def Spot.reference : Spot → Option Nat
  | .mk reference _ _ => reference

/-- The number of blocks before a spot. -/
def Spot.position : Spot → Nat
  | .mk _ position _ => position

/-- What happens at a spot. -/
def Spot.kind : Spot → SpotKind
  | .mk _ _ kind => kind

namespace Frame

/-- A frame without anything. -/
def empty : Frame := .mk [] [] false

instance : Inhabited Frame := ⟨empty⟩

/-- The static blocks. -/
def blocks : Frame → List Block
  | .mk blocks _ _ => blocks

/-- The spots in the order in which they were added. -/
def spots : Frame → List Spot
  | .mk _ spots _ => spots

/-- Whether the next piece starts a new block. -/
def isSealed : Frame → Bool
  | .mk _ _ isSealed => isSealed

/-- Blocks with a piece added to the last of them. -/
def pushLast : List Block → Piece → List Block
  | [], p => [Block.push {} p]
  | [b], p => [b.push p]
  | b :: rest, p => b :: pushLast rest p

/-- Adds a piece. -/
def pushPiece (f : Frame) (p : Piece) : Frame :=
  if f.isSealed then .mk (f.blocks ++ [Block.push {} p]) f.spots false
  else .mk (pushLast f.blocks p) f.spots false

/-- Adds markup, unless it is empty. -/
def pushHtml (f : Frame) (html : String) : Frame :=
  if html.isEmpty then f else f.pushPiece (.html html)

/-- Adds an expression that reads no name. -/
def pushConstant (f : Frame) (code : String) (raw : Bool) : Frame :=
  f.pushPiece (.constant code raw)

/-- Adds a spot. -/
def pushSpot (f : Frame) (reference : Option Nat) (kind : SpotKind) : Frame :=
  .mk f.blocks (f.spots ++ [.mk reference f.blocks.length kind]) true

/-- All blocks joined into one. -/
def markup (f : Frame) : Block := (f.blocks.flatMap Block.pieces).foldl Block.push {}

/-- Whether the frame renders nothing. -/
def isEmpty (f : Frame) : Bool := f.spots.isEmpty && f.blocks.all Block.isBlank

end Frame

end Stencil.Render
