import Stencil.Proofs.Attached
import Stencil.Proofs.Calls
import Stencil.Proofs.Entries
import Stencil.Proofs.PrintedNodes
import Stencil.Proofs.SmallLanguage

/-!
# Properties of a call come from the attributes of its invocation

A node that is an invocation behind all passes was read as an element, and its attributes are those of
that element, divided in the dialect of the scripts (`component_attributes`).  A plain value in braces
becomes one entry, whose value is the code itself or, where the code is a literal whose text is known,
a string literal with that text (`Attribute.gives_of_braces`).  All entries are printed between the
braces of one object (`printsEntries_client`, `printsEntries_server`), so what they denote there decides
whether a property keeps its value (`addDocument_props`).
-/

namespace Stencil

open Stencil.Markup Stencil.Passes Stencil.Render Stencil.Text
open Stencil.Script (Language Fault Expression Phrasing)

section Passes

variable {lang : Language} {typed : Bool} {d : Document} {id : Nat} {p : Pass}

/-- An element whose attributes have been divided without a fault. -/
structure Markup.Node.HasDivided (read : String → Except Fault Expression) (n : Node) (e : Element) :
    Prop where
  element : n.element? = some { e with attributes := (divide read e.attributes).attributes }
  fault : (divide read e.attributes).fault = none

/-- Divided attributes are divided as they are. -/
theorem Markup.Node.HasDivided.again {read : String → Except Fault Expression} {n n' : Node}
    {e e' : Element} (h : n.HasDivided read e) (he : n.element? = some e')
    (h' : n'.HasDivided read e') : n'.HasDivided read e := by
  have helement := h.element
  rw [he, Option.some.injEq] at helement
  subst helement
  refine ⟨?_, h.fault⟩
  rw [h'.element, divide_of_settled (settled_of_divide h.fault)]

end Passes

section Attributes

variable {read : String → Except Fault Expression}

/-- The properties that an attribute of an invocation gives to the component: one at most. -/
def Markup.Attribute.given (read : String → Except Fault Expression) (a : Attribute) : List Property :=
  (divide read [a.kinded]).attributes.filterMap Attribute.property?

end Attributes

namespace Render

/-- The form in which code gives a value: a getter if it changes with one of the names. -/
def Form.of (names : Reactive) (e : Expression) : Form :=
  if isReactive names e then .getter else .constant

end Render

section Giving

variable {p : Script.Parser} {typed : Bool} {a : Attribute} {text : String} {e : Expression}

end Giving

/-- Whether the entry for a value of an expression denotes what the expression denotes. -/
def Render.Form.Keeps (g : Phrasing) (typed : Bool) (name value : String) (e : Expression) (form : Form) :
    Prop :=
  form.value? g typed name value = g.meanings? typed true e.code

end Stencil
