import Stencil.Style.Read

/-!
# Flattening

Nested rules become rules of their own: `&` stands for a selector of the rule around, any other
selector becomes a descendant of it, and an at-rule that puts a condition on its content wraps the
selectors around it.
-/

namespace Stencil.Style

open Stencil.Text

/-- Whether a selector refers to the rule around it. -/
def refersToParent (selector : String) : Bool := selector.toList.contains '&'

/-- The selector with every `&` replaced. -/
def putParent (parent selector : String) : String :=
  String.ofList (replaceChar '&' parent.toList selector.toList)

/-- Selectors of a nested rule for each selector of the rule around it. -/
def resolveSelectors (children parents : List String) : List String :=
  if parents.isEmpty then
    (children.map fun child => trim (putParent "" child)).filter (!·.isEmpty)
  else
    parents.flatMap fun parent => children.map fun child =>
      if refersToParent child then putParent parent child else parent ++ " " ++ child

mutual

/-- The rules that a block stands for inside rules with the given selectors. -/
def flatten (parents : List String) : Block → List Block
  | .rule selectors declarations children =>
      let resolved := resolveSelectors selectors parents
      .rule resolved declarations [] :: flattenAll resolved children
  | .atRule name params declarations children braced =>
      if isConditional name then
        let inner := flattenAll parents children
        if parents.isEmpty then [.atRule name params declarations inner braced]
        else [.atRule name params "" (.rule parents declarations [] :: inner) braced]
      else [.atRule name params declarations children braced]

/-- The rules that some blocks stand for inside rules with the given selectors. -/
def flattenAll (parents : List String) : List Block → List Block
  | [] => []
  | b :: rest => flatten parents b ++ flattenAll parents rest

end

/-- The stylesheet without nested rules. -/
def Sheet.flat (s : Sheet) : Sheet := ⟨flattenAll [] s.blocks⟩

/-- Reads a stylesheet and flattens it. -/
def Sheet.parse (css : String) : Except Fault Sheet :=
  match Sheet.read css with
  | .ok s => .ok s.flat
  | .error f => .error f

mutual

/-- The block with its selectors confined by an attribute. -/
def scopeBlock (scope : String) : Block → Block
  | .rule selectors declarations _ =>
      .rule (selectors.flatMap (scopeSelector · scope)) declarations []
  | .atRule name params declarations children braced =>
      if isConditional name then
        .atRule name params declarations (scopeBlocks scope children) braced
      else .atRule name params declarations children braced

/-- Some blocks with their selectors confined by an attribute. -/
def scopeBlocks (scope : String) : List Block → List Block
  | [] => []
  | b :: rest => scopeBlock scope b :: scopeBlocks scope rest

end

/-- The attribute that the root elements of a component carry. -/
def scopeAttribute : String := "this"

/-- The stylesheet confined to the component with the given hash. -/
def Sheet.scoped (s : Sheet) (hash : String) : Sheet :=
  ⟨scopeBlocks ("[" ++ scopeAttribute ++ "=\"" ++ hash ++ "\"]") s.blocks⟩

end Stencil.Style
