import Stencil.Render.Code
import Stencil.Render.Emitter

/-!
# Names in scope

While code is printed, the names whose values change are kept in one set, which all parts of a
renderer share.  A loop puts its own names into the set or takes them out of it, and when the code
inside it has been printed, the set is what it was before.
-/

namespace Stencil.Render

open Stencil.Markup

/-- The names with one more at the end, unless it is among them. -/
def insertName (names : Reactive) (name : String) : Reactive :=
  if names.contains name then names else names ++ [name]

/-- The names without one of them, in the same order. -/
def removeName (names : Reactive) (name : String) : Reactive := names.filter (· != name)

/-- Printing code, with the names whose values change. -/
abbrev Rendering := StateM Reactive

/-- The commands that print the code, if these names can change. -/
def Rendering.commands (r : Rendering (List Command)) (names : Reactive) : List Command :=
  (r.run names).1

/-- Puts the names of a loop into the set if what it runs over changes, and otherwise takes them
out of it. -/
def markNames (l : Loop) (reactive : Bool) : Rendering Unit :=
  (l.item :: l.index.toList).forM fun name =>
    modify fun names => if reactive then insertName names name else removeName names name

/-- Prints what is inside a loop. -/
def withLoopScope (l : Loop) (reactive : Bool) (inside : Rendering (List Command)) :
    Rendering (List Command) := do
  let saved ← get
  markNames l reactive
  let commands ← inside
  set saved
  return commands

end Stencil.Render
