import Stencil.Text.Chars

/-!
# Stylesheets

A stylesheet is a list of rules and at-rules.  Bodies are kept as text, with the nested blocks cut
out and listed as children.
-/

namespace Stencil.Style

/-- A rule or an at-rule. -/
inductive Block where
  | rule (selectors : List String) (declarations : String) (children : List Block)
  /-- An at-rule; `braced` is false for statements such as `@import url(a.css);`. -/
  | atRule (name params declarations : String) (children : List Block) (braced : Bool)
  deriving Repr, Inhabited

mutual

/-- Whether two blocks are the same. -/
def Block.same : Block → Block → Bool
  | .rule s d c, .rule s' d' c' => s == s' && d == d' && Block.sameAll c c'
  | .atRule n p d c b, .atRule n' p' d' c' b' =>
      n == n' && p == p' && d == d' && Block.sameAll c c' && b == b'
  | _, _ => false

/-- Whether two lists of blocks are the same. -/
def Block.sameAll : List Block → List Block → Bool
  | [], [] => true
  | a :: as, b :: bs => Block.same a b && Block.sameAll as bs
  | _, _ => false

end

instance : BEq Block := ⟨Block.same⟩

/-- A stylesheet. -/
structure Sheet where
  blocks : List Block := []
  deriving Repr, BEq, Inhabited

/-- Whether the stylesheet holds nothing. -/
def Sheet.isEmpty (s : Sheet) : Bool := s.blocks.isEmpty

/-- At-rules that put a condition on the rules inside them. -/
def conditionalNames : List String :=
  ["media", "supports", "document", "layer", "container", "scope", "starting-style"]

/-- Whether an at-rule of this name puts a condition on the rules inside it. -/
def isConditional (name : String) : Bool := conditionalNames.contains (Text.lower name)

/-- Why a stylesheet was refused. -/
inductive Fault where
  /-- A brace without its partner, at this offset. -/
  | unbalanced (offset : Nat)
  deriving DecidableEq, Repr

/-- The wording of a fault. -/
def Fault.message : Fault → String
  | .unbalanced offset => "Unbalanced braces in style at offset " ++ toString offset

end Stencil.Style
