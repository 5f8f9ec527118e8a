import Stencil.Markup.Document
import Stencil.Text.Trim

/-!
# Chains of conditions

An `if` block takes in the `elseif` and `else` blocks that follow it, with nothing but comments and
blank text in between.
-/

namespace Stencil

open Stencil.Markup Stencil.Text

/-- Whether a part is blank text. -/
def isBlankPart : Part → Bool
  | .literal text => isSpaces text
  | .expression _ _ => false

/-- Whether a node may stand between the blocks of a chain. -/
def isFiller (n : Node) : Bool :=
  n.type == .comment ||
    match n.content with
    | .text (.raw text) => isSpaces text
    | .text (.parts parts) => parts.all isBlankPart
    | _ => false

/-- What is compiled together: a node, or the blocks of a chain. -/
inductive Group where
  | single (id : Nat)
  | chain (ids : List Nat)
  deriving DecidableEq, Repr

/-- The blocks that continue a chain, and the siblings after the last of them. -/
def chainRest (d : Document) (ids : List Nat) : List Nat × List Nat :=
  match h : ids.dropWhile fun id => isFiller (d.node id) with
  | [] => ([], ids)
  | id :: rest =>
      have : rest.length < ids.length := by
        have := (List.dropWhile_suffix (l := ids) fun id => isFiller (d.node id)).length_le
        rw [h] at this
        exact this
      match (d.node id).type with
      | .block .elseIf =>
          let (more, after) := chainRest d rest
          (id :: more, after)
      | .block .elseBlock => ([id], rest)
      | _ => ([], ids)
termination_by ids.length

/-- What follows a chain is no longer than what follows its first block. -/
theorem length_chainRest (d : Document) (ids : List Nat) :
    (chainRest d ids).2.length ≤ ids.length := by
  fun_induction chainRest d ids with
  | case1 => simp
  | case2 ids id rest h hlt _ more after hr ih => rw [hr] at ih; simp only at ih ⊢; omega
  | case3 ids id rest h hlt _ => simp only; omega
  | case4 => simp

/-- The siblings as they are compiled. -/
def groups (d : Document) : List Nat → List Group
  | [] => []
  | id :: rest =>
      if (d.node id).type == .block .ifBlock then
        have := length_chainRest d rest
        .chain (id :: (chainRest d rest).1) :: groups d (chainRest d rest).2
      else .single id :: groups d rest
termination_by ids => ids.length

end Stencil
