import Stencil.Render.Scope

/-!
# Code for the browser

A render function clones its markup, looks up the nodes that are needed and binds them one after
another.
-/

namespace Stencil.Render.Client

open Stencil.Markup Stencil.Text
open Stencil.Script (Expression)

/-- A call of a runtime function as a statement. -/
def call (name : String) (arguments : List String) : Command :=
  .line ("$." ++ name ++ "(" ++ joinWith ", " arguments ++ ");")

/-- The options of a loop. -/
def loopOptions (l : Loop) : List String :=
  let arrow (name : String) (e : Expression) : String :=
    name ++ ": (" ++ loopParams l ++ ") => " ++ wrapObject e.code
  (l.key.map (arrow "key")).toList ++ (l.guard.map (arrow "filter")).toList

/-- The last line of a loop. -/
def loopEnd (l : Loop) : Command :=
  match loopOptions l with
  | [] => .line "\x7d);"
  | options => .line ("\x7d, " ++ objectLiteral options ++ ");")

/-- The node that a spot is about, in code. -/
def target (reference : Option Nat) : String :=
  match reference with
  | some r => "$refs[" ++ toString r ++ "]"
  | none => "$node"

/-- The calls that bind a spot inside which nothing else is rendered. -/
def bindingCalls (names : Reactive) (target : String) : SpotKind → List Command
  | .text e html =>
      let reactive := isReactive names e
      [call (runtimeCall (if html then "html" else "text") reactive)
        [target, thunk e.code reactive]]
  | .script statements => statements.map .statement
  | .classes value toggles =>
      let reactive := value.any (isPartReactive names) || toggles.any (isReactive names ·.2)
      [call (runtimeCall "class" reactive) [target, thunk (combinedList value toggles) reactive]]
  | .styles value properties =>
      let reactive := value.any (isPartReactive names) || properties.any (isReactive names ·.2)
      [call (runtimeCall "style" reactive) [target, thunk (combinedList value properties) reactive]]
  | .attribute name value =>
      let reactive := value.any (isPartReactive names)
      [call (runtimeCall "attr" reactive) [target, quote name, thunk (partsValue value) reactive]]
  | .event name handler modifiers =>
      let flags := if modifiers = 0 then [] else [toString modifiers]
      [call "event" ([target, quote name, eventHandler handler] ++ flags)]
  | .bind property bound =>
      [call "bind" [target, quote property, "() => " ++ bound.code,
        "($value) => \x7b " ++ bound.code ++ " = $value; \x7d"]]
  | .ref bound => [call "ref" [target, "($node) => \x7b " ++ bound.code ++ " = $node; \x7d"]]
  | .action name params =>
      [call "action" ([target, name] ++ (params.map fun p => "() => " ++ wrapObject p.code).toList)]
  | .conditional _ | .each _ _ | .slot _ _ | .invoke _ _ _ => []

mutual

/-- Prints the body of a render function. -/
def renderBody : Frame → Rendering (List Command)
  | .mk blocks spots isSealed => do
      let f := Frame.mk blocks spots isSealed
      let refs := if spots.any (·.reference.isSome) then
        [Command.line "const $refs = $.refs($node);"] else []
      let bindings ← renderSpots spots
      return .line ("const $node = $.template(" ++ f.markup.code ++ ");") :: refs ++
        bindings ++ [.line "return $node;"]

/-- Prints the bindings of some spots. -/
def renderSpots : List Spot → Rendering (List Command)
  | [] => return []
  | s :: rest => do
      let first ← renderSpot s
      let others ← renderSpots rest
      return first ++ others

/-- Prints the binding of a spot. -/
def renderSpot : Spot → Rendering (List Command)
  | .mk reference _ kind => renderKind (target reference) kind

/-- Prints the binding of a spot about the given node. -/
def renderKind (target : String) : SpotKind → Rendering (List Command)
  | .conditional branches => do
      let names ← get
      let reactive := branches.any fun b => b.condition.any (isReactive names)
      let commands ← renderBranches reactive branches
      return .line ("$." ++ runtimeCall "conditional" reactive ++ "(" ++ target ++ ", [") ::
        indented commands ++ [.line "]);"]
  | .each header frame => do
      let reactive := isReactive (← get) header.iterable
      let commands ← withLoopScope header reactive (renderBody frame)
      return .line ("$." ++ runtimeCall "each" reactive ++ "(" ++ target ++ ", " ++
          thunk header.iterable.code reactive ++ ", (" ++ loopParams header ++ ") => \x7b") ::
        indented commands ++ [loopEnd header]
  | .slot name fallback => do
      let head := "$.slot(" ++ target ++ ", $props, " ++ quote name ++ ", "
      match fallback with
      | some frame =>
          let commands ← renderBody frame
          return .line (head ++ "() => \x7b") :: indented commands ++ [.line "\x7d);"]
      | none => return [.line (head ++ "null);")]
  | .invoke component props slots => do
      let names ← get
      let head := "$.component(" ++ target ++ ", " ++ component ++ ", " ++
        objectLiteral (props.map (propertyEntry names)) ++ ", \x7b"
      if slots.isEmpty then return [.line (head ++ "\x7d);")]
      else
        let commands ← renderSlots slots
        return .line head :: indented commands ++ [.line "\x7d);"]
  | kind => return bindingCalls (← get) target kind

/-- Prints the branches of a conditional. -/
def renderBranches (reactive : Bool) : List Branch → Rendering (List Command)
  | [] => return []
  | .mk condition frame :: rest => do
      let test := match condition with
        | some e => thunk e.code reactive
        | none => "null"
      let commands ← renderBody frame
      let others ← renderBranches reactive rest
      return .line ("[" ++ test ++ ", () => \x7b") :: indented commands ++
        .line "\x7d]," :: others

/-- Prints the functions for the slots of an invoked component. -/
def renderSlots : List SlotBody → Rendering (List Command)
  | [] => return []
  | .mk name frame :: rest => do
      let commands ← renderBody frame
      let others ← renderSlots rest
      return .line (propertyKey name ++ ": () => \x7b") :: indented commands ++
        .line "\x7d," :: others

end

end Stencil.Render.Client
