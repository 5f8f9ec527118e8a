import Mathlib.Data.Set.Basic
import Stencil.Proofs.Environment
import Stencil.Proofs.Frame

/-!
# Reactivity is lexically scoped

A spot that shows a value is bound once and for all, or again and again if the value can change.
Which of the two is decided by the loops around it: `lexical` is the set of the names that can change
inside them.  `sites` lists every spot of a frame, at any depth, with the loops around it and the
step at which its code is printed, and `client_lexical` says what is printed there.
-/

namespace Stencil.Render

open Stencil.Markup Stencil.Text
open Stencil.Script (Expression)

/-- Whether the loop gives a value to the name. -/
def Binds (l : Loop) (name : String) : Prop := name = l.item ∨ l.index = some name

/-- Whether what the loop runs over can change. -/
def Runs (names : Set String) (l : Loop) : Prop := ∃ name ∈ l.iterable.dependencies, name ∈ names

/-- The names that can change inside a loop: its own names are added if what it runs over can change,
and removed otherwise. -/
def enter (names : Set String) (l : Loop) : Set String :=
  {name | Runs names l ∧ (name ∈ names ∨ Binds l name) ∨
    ¬ Runs names l ∧ (name ∈ names ∧ ¬ Binds l name)}

/-- The names that can change inside some loops, the outermost of which comes first. -/
def lexical (updated : List String) (loops : List Loop) : Set String :=
  loops.foldl enter {name | name ∈ updated}

/-- How a value is bound to a node. -/
structure Binding where
  /-- The runtime function that is given the value. -/
  once : String
  /-- The runtime function that is given a function for the value. -/
  again : String
  /-- What stands between the node and the value. -/
  arguments : List String := []
  code : String
  expressions : List Expression

/-- The expressions among some parts. -/
def partExpressions (parts : List Part) : List Expression :=
  parts.filterMap fun p => match p with
    | .expression e _ => some e
    | .literal _ => none

/-- The binding of a spot that shows a value: a text, an attribute, classes or styles. -/
def SpotKind.binding? : SpotKind → Option Binding
  | .text e false => some { once := "text", again := "Text", code := e.code, expressions := [e] }
  | .text e true => some { once := "html", again := "Html", code := e.code, expressions := [e] }
  | .attribute name value =>
      some { once := "attr", again := "Attr", arguments := [quote name], code := partsValue value,
             expressions := partExpressions value }
  | .classes value toggles =>
      some { once := "class", again := "Class", code := combinedList value toggles,
             expressions := partExpressions value ++ toggles.map Prod.snd }
  | .styles value properties =>
      some { once := "style", again := "Style", code := combinedList value properties,
             expressions := partExpressions value ++ properties.map Prod.snd }
  | _ => none

/-- Whether a value can change with some names. -/
def Binding.Varies (b : Binding) (names : Set String) : Prop :=
  ∃ e ∈ b.expressions, ∃ name ∈ e.dependencies, name ∈ names

/-- A spot, the loops around it, the outermost first, and the step at which it is printed. -/
structure Site where
  loops : List Loop
  step : Nat
  spot : Spot

mutual

/-- The number of steps that print a frame. -/
def Frame.steps : Frame → Nat
  | .mk _ spots _ => (if spots.any (·.reference.isSome) then 3 else 2) + spotSteps spots

/-- The number of steps that print some spots. -/
def spotSteps : List Spot → Nat
  | [] => 0
  | .mk _ _ kind :: rest => kind.steps + spotSteps rest

/-- The number of steps that print a spot of some kind. -/
def SpotKind.steps : SpotKind → Nat
  | .script statements => statements.length
  | .conditional branches => branchSteps branches + 4
  | .each _ body => body.steps + 4
  | .slot _ (some fallback) => fallback.steps + 4
  | .invoke _ _ slots => if slots.isEmpty then 1 else slotSteps slots + 4
  | _ => 1

/-- The number of steps that print some branches. -/
def branchSteps : List Branch → Nat
  | [] => 0
  | .mk _ body :: rest => body.steps + 4 + branchSteps rest

/-- The number of steps that print the content of some slots. -/
def slotSteps : List SlotBody → Nat
  | [] => 0
  | .mk _ body :: rest => body.steps + 4 + slotSteps rest

end

mutual

/-- The spots of a frame at every depth, for a frame inside some loops that is printed from a step
on. -/
def Frame.sites (loops : List Loop) (step : Nat) : Frame → List Site
  | .mk _ spots _ =>
      spotSites loops (step + if spots.any (·.reference.isSome) then 2 else 1) spots

/-- The given spots and those inside them. -/
def spotSites (loops : List Loop) (step : Nat) : List Spot → List Site
  | [] => []
  | .mk reference position kind :: rest =>
      ⟨loops, step, .mk reference position kind⟩ ::
        (kind.sites loops step ++ spotSites loops (step + kind.steps) rest)

/-- The spots inside a spot of some kind. -/
def SpotKind.sites (loops : List Loop) (step : Nat) : SpotKind → List Site
  | .conditional branches => branchSites loops (step + 2) branches
  | .each header body => body.sites (loops ++ [header]) (step + 2)
  | .slot _ (some fallback) => fallback.sites loops (step + 2)
  | .invoke _ _ slots => slotSites loops (step + 2) slots
  | _ => []

/-- The spots inside some branches. -/
def branchSites (loops : List Loop) (step : Nat) : List Branch → List Site
  | [] => []
  | .mk _ body :: rest =>
      body.sites loops (step + 2) ++ branchSites loops (step + body.steps + 4) rest

/-- The spots inside the content of some slots. -/
def slotSites (loops : List Loop) (step : Nat) : List SlotBody → List Site
  | [] => []
  | .mk _ body :: rest =>
      body.sites loops (step + 2) ++ slotSites loops (step + body.steps + 4) rest

end

/-- Indenting adds the two lines of the block. -/
theorem length_indented (commands : List Command) :
    (indented commands).length = commands.length + 2 := by
  simp [indented]

mutual

/-- How many steps print a frame does not depend on the names that can change. -/
theorem length_body (names : Reactive) (f : Frame) : (Client.body names f).length = f.steps := by
  cases f with
  | mk blocks spots isSealed =>
      simp only [Client.body, Frame.steps, List.length_append, List.length_cons, List.length_nil,
        length_spotList names spots]
      split <;> simp <;> omega

/-- The commands of spots take the steps that are counted for them. -/
theorem length_spotList (names : Reactive) (spots : List Spot) :
    (Client.spotList names spots).length = spotSteps spots := by
  match spots with
  | [] => rfl
  | .mk reference position kind :: rest =>
      simp only [Client.spotList, Client.spot, spotSteps, List.length_append,
        length_binding names _ kind, length_spotList names rest]

/-- The commands of a binding take the steps that are counted for it. -/
theorem length_binding (names : Reactive) (target : String) (kind : SpotKind) :
    (Client.binding names target kind).length = kind.steps := by
  match kind with
  | .text _ _ | .classes _ _ | .styles _ _ | .attribute _ _ | .event _ _ _ | .bind _ _ | .ref _
  | .action _ _ => rfl
  | .script statements => simp [Client.binding, Client.bindingCalls, SpotKind.steps]
  | .conditional branches =>
      simp [Client.binding, SpotKind.steps, length_indented, length_branchList]
  | .each header body =>
      simp [Client.binding, SpotKind.steps, length_indented, length_body]
  | .slot name none => rfl
  | .slot name (some fallback) =>
      simp [Client.binding, SpotKind.steps, length_indented, length_body]
  | .invoke component props slots =>
      simp only [Client.binding, SpotKind.steps]
      split
      · rfl
      · simp [length_indented, length_slotList]

/-- The commands of branches take the steps that are counted for them. -/
theorem length_branchList (names : Reactive) (reactive : Bool) (branches : List Branch) :
    (Client.branchList names reactive branches).length = branchSteps branches := by
  match branches with
  | [] => rfl
  | .mk condition body :: rest =>
      simp [Client.branchList, branchSteps, length_indented, length_body, length_branchList]
      omega

/-- The commands of slots take the steps that are counted for them. -/
theorem length_slotList (names : Reactive) (slots : List SlotBody) :
    (Client.slotList names slots).length = slotSteps slots := by
  match slots with
  | [] => rfl
  | .mk name body :: rest =>
      simp [Client.slotList, slotSteps, length_indented, length_body, length_slotList]
      omega

end

/-- The code of a site stands among some commands, printed from a step on inside some loops, and it
was made with the names that the loops further in leave. -/
def Site.Printed (commands : List Command) (names : Reactive) (loops : List Loop) (step : Nat)
    (site : Site) : Prop :=
  ∃ inner before after, site.loops = loops ++ inner ∧ site.step = step + before.length ∧
    commands = before ++ Client.spot (inner.foldl loopNames names) site.spot ++ after

/-- What is printed at a site is still printed there with commands around, steps counted on. -/
theorem Site.Printed.surround {commands : List Command} {names : Reactive} {loops : List Loop}
    {step : Nat} {site : Site} (front back : List Command)
    (h : site.Printed commands names loops (step + front.length)) :
    site.Printed (front ++ commands ++ back) names loops step := by
  obtain ⟨inner, before, after, hloops, hstep, rfl⟩ := h
  refine ⟨inner, front ++ before, after ++ back, hloops, ?_, by simp⟩
  rw [hstep, List.length_append, Nat.add_assoc]

/-- What is printed inside a loop is printed with the names of the loop. -/
theorem Site.Printed.loop {commands : List Command} {names : Reactive} {loops : List Loop}
    {step : Nat} {site : Site} {l : Loop}
    (h : site.Printed commands (loopNames names l) (loops ++ [l]) step) :
    site.Printed commands names loops step := by
  obtain ⟨inner, before, after, hloops, hstep, hcommands⟩ := h
  exact ⟨l :: inner, before, after, by simpa using hloops, hstep, hcommands⟩

/-- The body of a function that is printed between two lines. -/
theorem Site.Printed.function {commands : List Command} {names : Reactive} {loops : List Loop}
    {step : Nat} {site : Site} (first : Command) (back : List Command)
    (h : site.Printed commands names loops (step + 2)) :
    site.Printed (first :: indented commands ++ back) names loops step := by
  have hsurround := Site.Printed.surround [first, .deeper] (.shallower :: back) h
  simpa [indented] using hsurround

/-- What is printed behind a function. -/
theorem Site.Printed.later {commands : List Command} {names : Reactive} {loops : List Loop}
    {step : Nat} {site : Site} (first last : Command) (inside : List Command)
    (h : site.Printed commands names loops (step + inside.length + 4)) :
    site.Printed (first :: indented inside ++ last :: commands) names loops step := by
  have hsurround := Site.Printed.surround (first :: indented inside ++ [last]) []
    (by simpa [length_indented, Nat.add_assoc] using h)
  simpa using hsurround

mutual

/-- Every spot of a frame is printed with the names that the loops around it leave. -/
theorem printed_body (names : Reactive) (loops : List Loop) (step : Nat) (f : Frame) :
    ∀ site ∈ f.sites loops step, site.Printed (Client.body names f) names loops step := by
  cases f with
  | mk blocks spots isSealed =>
      intro site hsite
      simp only [Frame.sites] at hsite
      have hspots := printed_spotList names loops _ spots site hsite
      simp only [Client.body]
      -- the lines in front of the spots are one or two
      split at hspots
      · next href =>
          rw [if_pos href]
          exact Site.Printed.surround [_, _] [_] hspots
      · next href =>
          rw [if_neg href]
          exact Site.Printed.surround [_] [_] hspots

/-- The sites in spots are printed at their steps. -/
theorem printed_spotList (names : Reactive) (loops : List Loop) (step : Nat) (spots : List Spot) :
    ∀ site ∈ spotSites loops step spots,
      site.Printed (Client.spotList names spots) names loops step := by
  match spots with
  | [] => simp [spotSites]
  | .mk reference position kind :: rest =>
      intro site hsite
      simp only [spotSites, List.mem_cons, List.mem_append] at hsite
      simp only [Client.spotList, Client.spot]
      rcases hsite with rfl | hkind | hrest
      · exact ⟨[], [], Client.spotList names rest, by simp, rfl, rfl⟩
      · have hinside := printed_binding names (Client.target reference) loops step kind site hkind
        simpa using Site.Printed.surround [] (Client.spotList names rest) hinside
      · have hlater := printed_spotList names loops (step + kind.steps) rest site hrest
        rw [← length_binding names (Client.target reference) kind] at hlater
        simpa using Site.Printed.surround _ [] hlater

/-- The sites in a binding are printed at their steps. -/
theorem printed_binding (names : Reactive) (target : String) (loops : List Loop) (step : Nat)
    (kind : SpotKind) : ∀ site ∈ kind.sites loops step,
      site.Printed (Client.binding names target kind) names loops step := by
  match kind with
  | .text _ _ | .classes _ _ | .styles _ _ | .attribute _ _ | .event _ _ _ | .bind _ _ | .ref _
  | .action _ _ | .script _ | .slot _ none => simp [SpotKind.sites]
  | .conditional branches =>
      intro site hsite
      exact (printed_branchList names _ loops (step + 2) branches site hsite).function _ _
  | .each header body =>
      intro site hsite
      have hinside := printed_body (loopNames names header) (loops ++ [header]) (step + 2) body site
        hsite
      exact hinside.loop.function _ _
  | .slot name (some fallback) =>
      intro site hsite
      exact (printed_body names loops (step + 2) fallback site hsite).function _ _
  | .invoke component props slots =>
      intro site hsite
      have hinside := printed_slotList names loops (step + 2) slots site hsite
      simp only [Client.binding]
      cases slots with
      | nil => simp [SpotKind.sites, slotSites] at hsite
      | cons slot rest => exact hinside.function _ _

/-- The sites in branches are printed at their steps. -/
theorem printed_branchList (names : Reactive) (reactive : Bool) (loops : List Loop) (step : Nat)
    (branches : List Branch) : ∀ site ∈ branchSites loops step branches,
      site.Printed (Client.branchList names reactive branches) names loops step := by
  match branches with
  | [] => simp [branchSites]
  | .mk condition body :: rest =>
      intro site hsite
      simp only [branchSites, List.mem_append] at hsite
      simp only [Client.branchList]
      rcases hsite with hbody | hrest
      · exact (printed_body names loops (step + 2) body site hbody).function _ _
      · have hlater := printed_branchList names reactive loops _ rest site hrest
        rw [← length_body names body] at hlater
        exact hlater.later _ _ _

/-- The sites in slots are printed at their steps. -/
theorem printed_slotList (names : Reactive) (loops : List Loop) (step : Nat)
    (slots : List SlotBody) : ∀ site ∈ slotSites loops step slots,
      site.Printed (Client.slotList names slots) names loops step := by
  match slots with
  | [] => simp [slotSites]
  | .mk name body :: rest =>
      intro site hsite
      simp only [slotSites, List.mem_append] at hsite
      simp only [Client.slotList]
      rcases hsite with hbody | hrest
      · exact (printed_body names loops (step + 2) body site hbody).function _ _
      · have hlater := printed_slotList names loops _ rest site hrest
        rw [← length_body names body] at hlater
        exact hlater.later _ _ _

end

mutual

/-- No spot is left out of the sites. -/
theorem exists_site (loops : List Loop) (step : Nat) (f : Frame) {g : Frame} (hg : g ∈ f.frames)
    {s : Spot} (hs : s ∈ g.spots) : ∃ site ∈ f.sites loops step, site.spot = s := by
  cases f with
  | mk blocks spots isSealed =>
      simp only [Frame.frames, List.mem_cons] at hg
      simp only [Frame.sites]
      exact exists_spotSite loops _ spots (hg.imp_left fun h => by rw [h] at hs; exact hs) hs

/-- Every spot in a list, or in a frame of it, has a site. -/
theorem exists_spotSite (loops : List Loop) (step : Nat) (spots : List Spot) {g : Frame} {s : Spot}
    (hg : s ∈ spots ∨ g ∈ spotFrames spots) (hs : s ∈ g.spots) :
    ∃ site ∈ spotSites loops step spots, site.spot = s := by
  match spots with
  | [] => simp [spotFrames] at hg
  | .mk reference position kind :: rest =>
      simp only [List.mem_cons, spotFrames, List.mem_append] at hg
      simp only [spotSites, List.mem_cons, List.mem_append]
      rcases hg with (rfl | hrest) | hkind | hrest
      · exact ⟨_, .inl rfl, rfl⟩
      · obtain ⟨site, hsite, heq⟩ := exists_spotSite loops (step + kind.steps) rest (.inl hrest) hs
        exact ⟨site, .inr (.inr hsite), heq⟩
      · obtain ⟨site, hsite, heq⟩ := exists_kindSite loops step kind hkind hs
        exact ⟨site, .inr (.inl hsite), heq⟩
      · obtain ⟨site, hsite, heq⟩ := exists_spotSite loops (step + kind.steps) rest (.inr hrest) hs
        exact ⟨site, .inr (.inr hsite), heq⟩

/-- Every spot in a frame of a binding has a site. -/
theorem exists_kindSite (loops : List Loop) (step : Nat) (kind : SpotKind) {g : Frame}
    (hg : g ∈ kind.frames) {s : Spot} (hs : s ∈ g.spots) :
    ∃ site ∈ kind.sites loops step, site.spot = s := by
  match kind with
  | .text _ _ | .classes _ _ | .styles _ _ | .attribute _ _ | .event _ _ _ | .bind _ _ | .ref _
  | .action _ _ | .script _ | .slot _ none => simp [SpotKind.frames] at hg
  | .conditional branches => exact exists_branchSite loops (step + 2) branches hg hs
  | .each header body => exact exists_site (loops ++ [header]) (step + 2) body hg hs
  | .slot _ (some fallback) => exact exists_site loops (step + 2) fallback hg hs
  | .invoke _ _ slots => exact exists_slotSite loops (step + 2) slots hg hs

/-- Every spot in a frame of some branches has a site. -/
theorem exists_branchSite (loops : List Loop) (step : Nat) (branches : List Branch) {g : Frame}
    (hg : g ∈ branchFrames branches) {s : Spot} (hs : s ∈ g.spots) :
    ∃ site ∈ branchSites loops step branches, site.spot = s := by
  match branches with
  | [] => simp [branchFrames] at hg
  | .mk condition body :: rest =>
      simp only [branchFrames, List.mem_append] at hg
      simp only [branchSites, List.mem_append]
      rcases hg with hbody | hrest
      · obtain ⟨site, hsite, heq⟩ := exists_site loops (step + 2) body hbody hs
        exact ⟨site, .inl hsite, heq⟩
      · obtain ⟨site, hsite, heq⟩ := exists_branchSite loops (step + body.steps + 4) rest hrest hs
        exact ⟨site, .inr hsite, heq⟩

/-- Every spot in a frame of some slots has a site. -/
theorem exists_slotSite (loops : List Loop) (step : Nat) (slots : List SlotBody) {g : Frame}
    (hg : g ∈ slotFrames slots) {s : Spot} (hs : s ∈ g.spots) :
    ∃ site ∈ slotSites loops step slots, site.spot = s := by
  match slots with
  | [] => simp [slotFrames] at hg
  | .mk name body :: rest =>
      simp only [slotFrames, List.mem_append] at hg
      simp only [slotSites, List.mem_append]
      rcases hg with hbody | hrest
      · obtain ⟨site, hsite, heq⟩ := exists_site loops (step + 2) body hbody hs
        exact ⟨site, .inl hsite, heq⟩
      · obtain ⟨site, hsite, heq⟩ := exists_slotSite loops (step + body.steps + 4) rest hrest hs
        exact ⟨site, .inr hsite, heq⟩

end

/-- An expression is reactive exactly if it depends on a reactive name. -/
theorem isReactive_iff (names : Reactive) (e : Expression) :
    isReactive names e = true ↔ ∃ name ∈ e.dependencies, name ∈ names := by
  simp [isReactive]

/-- Some part is reactive exactly if some expression in the parts is. -/
theorem any_isPartReactive (names : Reactive) (parts : List Part) :
    parts.any (isPartReactive names) = (partExpressions parts).any (isReactive names) := by
  induction parts with
  | nil => rfl
  | cons p rest ih =>
      cases p with
      | literal text => simpa [isPartReactive, partExpressions] using ih
      | expression e raw =>
          simpa [isPartReactive, partExpressions] using congrArg (isReactive names e || ·) ih

/-- The names after an insertion are the names before and the new one. -/
theorem mem_insertName {names : Reactive} {name other : String} :
    other ∈ insertName names name ↔ other ∈ names ∨ other = name := by
  unfold insertName
  split
  · next h =>
      have hname : name ∈ names := by simpa using h
      constructor
      · exact .inl
      · rintro (h | rfl)
        · exact h
        · exact hname
  · simp

/-- The names after a removal are the others. -/
theorem mem_removeName {names : Reactive} {name other : String} :
    other ∈ removeName names name ↔ other ∈ names ∧ other ≠ name := by
  simp [removeName]

/-- One loop adds and removes names as `enter` says, however often it repeats a name. -/
theorem setOf_loopNames (names : Reactive) (l : Loop) :
    {name | name ∈ loopNames names l} = enter {name | name ∈ names} l := by
  ext name
  have hruns : isReactive names l.iterable = true ↔ Runs {name | name ∈ names} l :=
    isReactive_iff names l.iterable
  show name ∈ loopNames names l ↔ _ ∧ (name ∈ names ∨ _) ∨ ¬ _ ∧ (name ∈ names ∧ ¬ _)
  rw [← hruns, loopNames]
  cases hreactive : isReactive names l.iterable <;> cases hindex : l.index <;>
    simp [Binds, hindex, mem_insertName, mem_removeName, eq_comm, or_assoc, and_assoc]

/-- The names that a renderer has inside some loops are the lexical ones. -/
theorem setOf_foldl_loopNames (names : Reactive) (loops : List Loop) :
    {name | name ∈ loops.foldl loopNames names} = lexical names loops := by
  unfold lexical
  induction loops generalizing names with
  | nil => rfl
  | cons l rest ih => rw [List.foldl_cons, List.foldl_cons, ← setOf_loopNames, ih]

/-- A binding has a reactive expression exactly if it varies with the names. -/
theorem Binding.varies_iff (b : Binding) (names : Reactive) :
    b.expressions.any (isReactive names) = true ↔ b.Varies {name | name ∈ names} := by
  simp [Binding.Varies, isReactive]

/-- A call of a runtime function with a value, or with a function for the value. -/
def Binding.command (b : Binding) (target : String) (reactive : Bool) : Command :=
  if reactive then
    Client.call b.again (target :: b.arguments ++ ["() => " ++ wrapObject b.code])
  else Client.call b.once (target :: b.arguments ++ [b.code])

/-- A spot that shows a value is one call, chosen by the expressions of the value. -/
theorem binding_eq {kind : SpotKind} {b : Binding} (h : kind.binding? = some b) (names : Reactive)
    (target : String) :
    Client.binding names target kind =
      [b.command target (b.expressions.any (isReactive names))] := by
  have hentries : ∀ entries : List (String × Expression),
      entries.any (isReactive names ·.2) = (entries.map Prod.snd).any (isReactive names) := by
    intro entries
    rw [List.any_map]
    rfl
  unfold SpotKind.binding? at h
  split at h <;> cases h
  · next e =>
      simp only [Client.binding, Client.bindingCalls, List.any_cons, List.any_nil, Bool.or_false]
      cases isReactive names e <;> rfl
  · next e =>
      simp only [Client.binding, Client.bindingCalls, List.any_cons, List.any_nil, Bool.or_false]
      cases isReactive names e <;> rfl
  · next name value =>
      simp only [Client.binding, Client.bindingCalls, any_isPartReactive]
      cases (partExpressions value).any (isReactive names) <;> rfl
  · next value toggles =>
      simp only [Client.binding, Client.bindingCalls, any_isPartReactive, hentries, List.any_append]
      cases (partExpressions value).any (isReactive names) ||
        (toggles.map Prod.snd).any (isReactive names) <;> rfl
  · next value properties =>
      simp only [Client.binding, Client.bindingCalls, any_isPartReactive, hentries, List.any_append]
      cases (partExpressions value).any (isReactive names) ||
        (properties.map Prod.snd).any (isReactive names) <;> rfl

/-- **Reactivity is lexically scoped.**  Every spot of a component that shows a value, at any depth,
is bound by the capitalised call with a function if the value depends on a name that can change
inside the loops around it, and by the other call with the plain value if not.  Behind every spot the
set of names is what it was in front of it. -/
theorem client_lexical (c : Component) :
    (∀ f ∈ c.base.frames, ∀ s ∈ f.spots, ∃ site ∈ c.base.sites [] 0, site.spot = s) ∧
    (∀ site ∈ c.base.sites [] 0, ∀ b, site.spot.kind.binding? = some b →
      (b.Varies (lexical c.updated site.loops) →
        (c.renderBody .client)[site.step]? = some (Client.call b.again
          (Client.target site.spot.reference :: b.arguments ++ ["() => " ++ wrapObject b.code]))) ∧
      (¬ b.Varies (lexical c.updated site.loops) →
        (c.renderBody .client)[site.step]? = some (Client.call b.once
          (Client.target site.spot.reference :: b.arguments ++ [b.code])))) ∧
    ∀ target kind names, ((Client.renderKind target kind).run names).2 = names := by
  refine ⟨fun f hf s hs => exists_site [] 0 c.base hf hs, ?_, fun target kind names =>
    congrArg Prod.snd (Client.run_renderKind names target kind)⟩
  intro site hsite b hb
  obtain ⟨inner, before, after, hloops, hstep, hcommands⟩ :=
    printed_body c.updated [] 0 c.base site hsite
  obtain ⟨loops, step, reference, position, kind⟩ := site
  simp only [List.nil_append, Nat.zero_add, Spot.kind, Spot.reference] at *
  subst hloops hstep
  have hline : (c.renderBody .client)[before.length]? = some (b.command (Client.target reference)
      (b.expressions.any (isReactive (loops.foldl loopNames c.updated)))) := by
    simp [Component.renderBody_client, hcommands, Client.spot, binding_eq hb]
  have hreactive := b.varies_iff (loops.foldl loopNames c.updated)
  rw [setOf_foldl_loopNames] at hreactive
  constructor
  · intro h
    rw [hline, hreactive.mpr h]
    rfl
  · intro h
    rw [hline, Bool.eq_false_iff.mpr (mt hreactive.mp h)]
    rfl

/-- The value of a variable. -/
def readName (name : String) : Expression := ⟨name, [name], [], .name, none⟩

/-- The rows of a table that changes, in which a row is shown once inside a loop that gives its name
to something else, and once behind that loop. -/
def shadowedRow : Component :=
  { name := "Table", root := 0, updated := ["rows"], base := .mk [] [
      .mk (some 0) 0 (.each { iterable := readName "rows", item := "row" } (.mk [] [
        .mk (some 1) 0 (.each { iterable := readName "fixed", item := "row" } (.mk [] [
          .mk (some 2) 0 (.text (readName "row") false)] true)),
        .mk (some 3) 0 (.text (readName "row") false)] true))] true }

/-- The inner loop hides the row that changes, and behind it the row can change again. -/
theorem client_lexical_shadowedRow :
    (shadowedRow.renderBody .client)[10]? = some (.line "$.text($refs[2], row);") ∧
      (shadowedRow.renderBody .client)[14]? = some (.line "$.Text($refs[3], () => row);") := by
  have hinner : ¬ "row" ∈ lexical shadowedRow.updated [{ iterable := readName "rows", item := "row" },
      { iterable := readName "fixed", item := "row" }] := by
    simp [shadowedRow, lexical, enter, Runs, Binds, readName]
  have houter : "row" ∈ lexical shadowedRow.updated
      [{ iterable := readName "rows", item := "row" }] := by
    simp [shadowedRow, lexical, enter, Runs, Binds, readName]
  constructor
  · exact ((client_lexical shadowedRow).2.1 ⟨_, 10, .mk (some 2) 0 (.text (readName "row") false)⟩
      (.tail _ (.tail _ (.head _))) _ rfl).2 (by simpa [Binding.Varies, readName] using hinner)
  · exact ((client_lexical shadowedRow).2.1 ⟨_, 14, .mk (some 3) 0 (.text (readName "row") false)⟩
      (.tail _ (.tail _ (.tail _ (.head _)))) _ rfl).1
      (by simpa [Binding.Varies, readName] using houter)

end Stencil.Render
