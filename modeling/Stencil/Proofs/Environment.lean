import Stencil.Component.Basic

/-!
# One set of names, or one for each place

The renderers keep the names whose values change in one set, which every loop changes and restores.
The same code is printed if each part is given the names that can change there: the code of a loop is
printed with the names of the loop, and everything else with the names that are there already
(`Client.body`, `Server.statements`).  Rendering a part gives this code and leaves the set as it was
(`Client.run_renderBody`, `Server.run_renderStatements`), whatever loops are inside it and whatever
they call their names.
-/

namespace Stencil.Render

open Stencil.Markup Stencil.Text

/-- The names whose values change inside a loop, its own names put in or taken out one by one. -/
def loopNames (names : Reactive) (l : Loop) : Reactive :=
  (l.item :: l.index.toList).foldl
    (if isReactive names l.iterable then insertName else removeName) names

/-! ### Running a renderer -/

section Run

variable {α β : Type} (names : Reactive)

/-- A value alone leaves the names. -/
@[simp] theorem run_pure (x : α) : (pure x : Rendering α).run names = (x, names) := rfl

/-- One step after another runs on the names the first leaves. -/
@[simp] theorem run_bind (r : Rendering α) (next : α → Rendering β) :
    (r >>= next).run names = (next (r.run names).1).run (r.run names).2 := rfl

/-- Reading the names gives those there are. -/
@[simp] theorem run_get : (get : Rendering Reactive).run names = (names, names) := rfl

/-- Putting names back replaces those there are. -/
@[simp] theorem run_set (saved : Reactive) :
    (set saved : Rendering PUnit).run names = (⟨⟩, saved) := rfl

end Run

/-- A loop marks its names one by one. -/
theorem run_markNames (l : Loop) (names : Reactive) :
    (markNames l (isReactive names l.iterable)).run names = (⟨⟩, loopNames names l) := by
  unfold markNames loopNames
  cases isReactive names l.iterable <;> cases l.index <;> rfl

/-- Inside a loop its names are marked, and behind it the set is what it was in front of it. -/
theorem run_withLoopScope {l : Loop} {names after : Reactive} {inside : Rendering (List Command)}
    {commands : List Command} (h : inside.run (loopNames names l) = (commands, after)) :
    (withLoopScope l (isReactive names l.iterable) inside).run names = (commands, names) := by
  simp only [withLoopScope, run_bind, run_get, run_markNames, h, run_set, run_pure]

/-! ### Code for the browser -/

namespace Client

mutual

/-- The body of a render function where the given names can change. -/
def body (names : Reactive) : Frame → List Command
  | .mk blocks spots isSealed =>
      let f := Frame.mk blocks spots isSealed
      let refs := if spots.any (·.reference.isSome) then
        [Command.line "const $refs = $.refs($node);"] else []
      .line ("const $node = $.template(" ++ f.markup.code ++ ");") :: refs ++
        spotList names spots ++ [.line "return $node;"]

/-- The bindings of some spots. -/
def spotList (names : Reactive) : List Spot → List Command
  | [] => []
  | s :: rest => spot names s ++ spotList names rest

/-- The binding of a spot. -/
def spot (names : Reactive) : Spot → List Command
  | .mk reference _ kind => binding names (target reference) kind

/-- The binding of a spot about the given node. -/
def binding (names : Reactive) (target : String) : SpotKind → List Command
  | .conditional branches =>
      let reactive := branches.any fun b => b.condition.any (isReactive names)
      .line ("$." ++ runtimeCall "conditional" reactive ++ "(" ++ target ++ ", [") ::
        indented (branchList names reactive branches) ++ [.line "]);"]
  | .each header frame =>
      let reactive := isReactive names header.iterable
      .line ("$." ++ runtimeCall "each" reactive ++ "(" ++ target ++ ", " ++
          thunk header.iterable.code reactive ++ ", (" ++ loopParams header ++ ") => \x7b") ::
        indented (body (loopNames names header) frame) ++ [loopEnd header]
  | .slot name fallback =>
      let head := "$.slot(" ++ target ++ ", $props, " ++ quote name ++ ", "
      match fallback with
      | some frame =>
          .line (head ++ "() => \x7b") :: indented (body names frame) ++ [.line "\x7d);"]
      | none => [.line (head ++ "null);")]
  | .invoke component props slots =>
      let head := "$.component(" ++ target ++ ", " ++ component ++ ", " ++
        objectLiteral (props.map (propertyEntry names)) ++ ", \x7b"
      if slots.isEmpty then [.line (head ++ "\x7d);")]
      else .line head :: indented (slotList names slots) ++ [.line "\x7d);"]
  | kind => bindingCalls names target kind

/-- The branches of a conditional. -/
def branchList (names : Reactive) (reactive : Bool) : List Branch → List Command
  | [] => []
  | .mk condition frame :: rest =>
      let test := match condition with
        | some e => thunk e.code reactive
        | none => "null"
      .line ("[" ++ test ++ ", () => \x7b") :: indented (body names frame) ++
        .line "\x7d]," :: branchList names reactive rest

/-- The functions for the slots of an invoked component. -/
def slotList (names : Reactive) : List SlotBody → List Command
  | [] => []
  | .mk name frame :: rest =>
      .line (propertyKey name ++ ": () => \x7b") :: indented (body names frame) ++
        .line "\x7d," :: slotList names rest

end

mutual

/-- **Shared names for the browser.**  Rendering a frame prints its code with the names that are in
the set at the start, and leaves the set as it was. -/
theorem run_renderBody (names : Reactive) (f : Frame) :
    (renderBody f).run names = (body names f, names) := by
  cases f with
  | mk blocks spots isSealed =>
      simp only [renderBody, run_bind, run_renderSpots names spots, run_pure, body]

/-- Rendering spots leaves the names as they were. -/
theorem run_renderSpots (names : Reactive) (spots : List Spot) :
    (renderSpots spots).run names = (spotList names spots, names) := by
  match spots with
  | [] => rfl
  | .mk reference position kind :: rest =>
      simp only [renderSpots, renderSpot, run_bind, run_renderKind names _ kind,
        run_renderSpots names rest, run_pure, spotList, spot]

/-- Rendering what is at a spot leaves the names as they were. -/
theorem run_renderKind (names : Reactive) (target : String) (kind : SpotKind) :
    (renderKind target kind).run names = (binding names target kind, names) := by
  match kind with
  | .text _ _ | .script _ | .classes _ _ | .styles _ _ | .attribute _ _ | .event _ _ _ | .bind _ _
  | .ref _ | .action _ _ | .slot _ none => rfl
  | .conditional branches =>
      simp only [renderKind, run_bind, run_get, run_renderBranches names _ branches, run_pure, binding]
  | .each header frame =>
      have hloop := run_withLoopScope (run_renderBody (loopNames names header) frame)
      simp only [renderKind, run_bind, run_get, hloop, run_pure, binding]
  | .slot name (some frame) =>
      simp only [renderKind, run_bind, run_renderBody names frame, run_pure, binding]
  | .invoke component props [] => rfl
  | .invoke component props (slot :: rest) =>
      simp only [renderKind, run_bind, run_get, List.isEmpty_cons, Bool.false_eq_true, if_false,
        run_renderSlots names (slot :: rest), run_pure, binding]

/-- Rendering branches leaves the names as they were. -/
theorem run_renderBranches (names : Reactive) (reactive : Bool) (branches : List Branch) :
    (renderBranches reactive branches).run names = (branchList names reactive branches, names) := by
  match branches with
  | [] => rfl
  | .mk condition frame :: rest =>
      cases condition <;> simp only [renderBranches, run_bind, run_renderBody names frame,
        run_renderBranches names reactive rest, run_pure, branchList]

/-- Rendering slots leaves the names as they were. -/
theorem run_renderSlots (names : Reactive) (slots : List SlotBody) :
    (renderSlots slots).run names = (slotList names slots, names) := by
  match slots with
  | [] => rfl
  | .mk name frame :: rest =>
      simp only [renderSlots, run_bind, run_renderBody names frame, run_renderSlots names rest,
        run_pure, slotList]

end

/-- The commands of a body are those with the names passed down. -/
theorem commands_renderBody (names : Reactive) (f : Frame) :
    (renderBody f).commands names = body names f :=
  congrArg Prod.fst (run_renderBody names f)

/-- The commands at a spot are those with the names passed down. -/
theorem commands_renderKind (names : Reactive) (target : String) (kind : SpotKind) :
    (renderKind target kind).commands names = binding names target kind :=
  congrArg Prod.fst (run_renderKind names target kind)

end Client

/-! ### Code for the server -/

namespace Server

mutual

/-- The statements that add a frame to the markup where the given names can change. -/
def statements (names : Reactive) : Frame → List Command
  | .mk blocks spots _ => interleave 0 blocks (spotList names spots)

/-- The code of some spots with their positions. -/
def spotList (names : Reactive) : List Spot → List (Nat × List Command)
  | [] => []
  | .mk _ position kind :: rest => (position, binding names kind) :: spotList names rest

/-- The code of a spot. -/
def binding (names : Reactive) : SpotKind → List Command
  | .conditional branches =>
      branchList names true branches ++ if branches.isEmpty then [] else [.line "\x7d"]
  | .each header frame =>
      .line ("for (const [" ++ header.item ++ ", " ++ header.index.getD "$index" ++
          "] of $.iterate(" ++ header.iterable.code ++ ")) \x7b") ::
        indented ((header.guard.map fun g => Command.line ("if (!(" ++ g.code ++ ")) continue;")).toList ++
          statements (loopNames names header) frame) ++ [.line "\x7d"]
  | .slot name fallback =>
      let head := "$html += $.slot($props, " ++ quote name ++ ", "
      match fallback with
      | some frame =>
          .line (head ++ "() => \x7b") :: indented (withHtml (statements names frame)) ++
            [.line "\x7d);"]
      | none => [.line (head ++ "null);")]
  | .invoke component props slots =>
      let entries := props.map (propertyEntry names)
      if slots.isEmpty then [add (component ++ "(" ++ objectLiteral entries ++ ")")]
      else
        .line ("$html += " ++ component ++ "(\x7b " ++ joinWith ", " (entries ++ ["$slots: \x7b"])) ::
          indented (slotList names slots) ++ [.line "\x7d \x7d);"]
  | kind => additions kind

/-- The branches of a conditional; `first` if none stands before them. -/
def branchList (names : Reactive) (first : Bool) : List Branch → List Command
  | [] => []
  | .mk condition frame :: rest =>
      let head := match condition with
        | some e => (if first then "if (" else "\x7d else if (") ++ e.code ++ ") \x7b"
        | none => "\x7d else \x7b"
      .line head :: indented (statements names frame) ++ branchList names false rest

/-- The functions for the slots of an invoked component. -/
def slotList (names : Reactive) : List SlotBody → List Command
  | [] => []
  | .mk name frame :: rest =>
      .line (propertyKey name ++ ": () => \x7b") :: indented (withHtml (statements names frame)) ++
        .line "\x7d," :: slotList names rest

end

/-- The body of a render function. -/
def body (names : Reactive) (f : Frame) : List Command := withHtml (statements names f)

mutual

/-- **Shared names for the server.**  Rendering a frame prints its statements with the names that are
in the set at the start, and leaves the set as it was. -/
theorem run_renderStatements (names : Reactive) (f : Frame) :
    (renderStatements f).run names = (statements names f, names) := by
  cases f with
  | mk blocks spots isSealed =>
      simp only [renderStatements, run_bind, run_renderSpots names spots, run_pure, statements]

/-- Rendering spots on the server leaves the names as they were. -/
theorem run_renderSpots (names : Reactive) (spots : List Spot) :
    (renderSpots spots).run names = (spotList names spots, names) := by
  match spots with
  | [] => rfl
  | .mk reference position kind :: rest =>
      simp only [renderSpots, run_bind, run_renderKind names kind, run_renderSpots names rest,
        run_pure, spotList]

/-- Rendering what is at a spot on the server leaves the names as they were. -/
theorem run_renderKind (names : Reactive) (kind : SpotKind) :
    (renderKind kind).run names = (binding names kind, names) := by
  match kind with
  | .text _ _ | .script _ | .classes _ _ | .styles _ _ | .attribute _ _ | .event _ _ _ | .bind _ _
  | .ref _ | .action _ _ | .slot _ none => rfl
  | .conditional branches =>
      simp only [renderKind, run_bind, run_renderBranches names true branches, run_pure, binding]
  | .each header frame =>
      have hloop := run_withLoopScope (run_renderStatements (loopNames names header) frame)
      simp only [renderKind, run_bind, run_get, hloop, run_pure, binding]
  | .slot name (some frame) =>
      simp only [renderKind, run_bind, run_renderStatements names frame, run_pure, binding]
  | .invoke component props [] => rfl
  | .invoke component props (slot :: rest) =>
      simp only [renderKind, run_bind, run_get, List.isEmpty_cons, Bool.false_eq_true, if_false,
        run_renderSlots names (slot :: rest), run_pure, binding]

/-- Rendering branches on the server leaves the names as they were. -/
theorem run_renderBranches (names : Reactive) (first : Bool) (branches : List Branch) :
    (renderBranches first branches).run names = (branchList names first branches, names) := by
  match branches with
  | [] => rfl
  | .mk condition frame :: rest =>
      cases condition <;> simp only [renderBranches, run_bind, run_renderStatements names frame,
        run_renderBranches names false rest, run_pure, branchList]

/-- Rendering slots on the server leaves the names as they were. -/
theorem run_renderSlots (names : Reactive) (slots : List SlotBody) :
    (renderSlots slots).run names = (slotList names slots, names) := by
  match slots with
  | [] => rfl
  | .mk name frame :: rest =>
      simp only [renderSlots, run_bind, run_renderStatements names frame, run_renderSlots names rest,
        run_pure, slotList]

end

/-- The statements of a body are those with the names passed down. -/
theorem commands_renderStatements (names : Reactive) (f : Frame) :
    (renderStatements f).commands names = statements names f :=
  congrArg Prod.fst (run_renderStatements names f)

/-- The statements at a spot are those with the names passed down. -/
theorem commands_renderKind (names : Reactive) (kind : SpotKind) :
    (renderKind kind).commands names = binding names kind :=
  congrArg Prod.fst (run_renderKind names kind)

end Server

end Stencil.Render

namespace Stencil.Component

open Stencil.Render

/-- The body of a component's function in the browser, with the names that the component changes. -/
theorem renderBody_client (c : Component) :
    c.renderBody .client = Client.body c.updated c.base :=
  Client.commands_renderBody c.updated c.base

/-- The body of a component's function on the server, with the same names. -/
theorem renderBody_server (c : Component) :
    c.renderBody .server = Server.withHtml (Server.statements c.updated c.base) :=
  congrArg Server.withHtml (Server.commands_renderStatements c.updated c.base)

end Stencil.Component
