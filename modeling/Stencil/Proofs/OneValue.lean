import Stencil.Proofs.Environment
import Stencil.Proofs.SmallLanguage

/-!
# A text binding passes one value

The code of an expression is pasted behind a comma and in front of a parenthesis, or behind an arrow, so
each of its operands can become an argument of its own.  By the productions of calls, functions and
parentheses the line of a binding is a call of the setter, whose arguments follow from the operands of
the expression (`Phrasing.Composes.bindingLine_calls`).  It passes the expression as one value exactly if
there is one operand or the code was put in parentheses (`textBinding_passes`).
-/

namespace Stencil.Script

open Stencil.Text Stencil.Render

/-- The runtime function that sets a text. -/
def setter (html reactive : Bool) : String := runtimeCall (if html then "html" else "text") reactive

theorem isName_setter (html reactive : Bool) : isName (setter html reactive) = true := by
  cases html <;> cases reactive <;> decide

/-- The line of a text binding. -/
def bindingLine (names : Reactive) (reference : Option Nat) (e : Expression) (html : Bool) : String :=
  "$." ++ setter html (isReactive names e) ++ "(" ++
    (Client.target reference ++ ", " ++ thunk e.code (isReactive names e)) ++ ");"

/-- The line is what the renderer prints for a text, whatever names it is given. -/
theorem run_renderKind_text (names : Reactive) (reference : Option Nat) (e : Expression) (html : Bool) :
    ((Client.renderKind (Client.target reference) (.text e html)).run names).1 =
      [.line (bindingLine names reference e html)] := by
  have hpair : ∀ a b, joinWith ", " [a, b] = a ++ ", " ++ b := fun _ _ => rfl
  rw [Client.run_renderKind]
  simp only [Client.binding, Client.bindingCalls, Client.call, bindingLine, setter, hpair]

/-- The arguments that the operands of an expression become behind the node.  A function takes the first
of them, or all of them if its body was put in parentheses. -/
def passedNodes (reactive : Bool) (code : String) : List Operand → List Node
  | [] => []
  | o :: os =>
      if reactive then
        if code.toList.head? = some '\x7b' then
          [.arrow [] [] .absent [.paren (Operand.together (o :: os))]]
        else .arrow [] [] .absent [o.node] :: os.map Operand.node
      else o.node :: os.map Operand.node

/-- What a binding passes for an expression: the expression, or a function without parameters that
gives it, in parentheses or not. -/
def PassesTree (n value : Node) : Prop :=
  value = n ∨ value = .arrow [] [] .absent [n] ∨ value = .arrow [] [] .absent [.paren n]

/-- One argument is the whole expression exactly if it is one operand or was put in parentheses. -/
theorem passedNodes_iff (reactive : Bool) (code : String) {os : List Operand} (hne : os ≠ []) :
    (∃ value, passedNodes reactive code os = [value] ∧ PassesTree (Operand.together os) value) ↔
      (∃ o, os = [o]) ∨ reactive = true ∧ code.toList.head? = some '\x7b' := by
  obtain ⟨o, rest, rfl⟩ := List.exists_cons_of_ne_nil hne
  by_cases hwrapped : reactive = true ∧ code.toList.head? = some '\x7b'
  · obtain ⟨rfl, hbrace⟩ := hwrapped
    simp [passedNodes, PassesTree, hbrace]
  · have hone : (∃ o', o :: rest = [o']) ↔ rest = [] := by simp
    rw [hone]
    simp only [hwrapped, or_false]
    constructor
    · rintro ⟨value, hvalue, -⟩
      cases reactive <;> simp_all [passedNodes]
    · rintro rfl
      cases reactive <;> simp_all [passedNodes, PassesTree, Operand.together]

namespace Phrasing.Composes

variable {g : Phrasing} {p : Parser} {typed reactive : Bool} {code : String} {os : List Operand}

/-- Code that is passed, as it is or by a function, is divided into the arguments it becomes. -/
theorem operands_thunk (h : g.Composes p typed) (hos : g.operands? typed true code = some os)
    (hplain : g.commented typed code = false)
    (hreactive : reactive = true → g.operands? typed false code = some os ∧
      (startsBare code = true ∨ code.toList.head? = some '\x7b')) :
    ∃ os', g.operands? typed true (thunk code reactive) = some os' ∧
      os'.map Operand.node = passedNodes reactive code os ∧
      g.commented typed (thunk code reactive) = false := by
  obtain ⟨o, rest, rfl⟩ := List.exists_cons_of_ne_nil (h.single hos).1
  cases reactive with
  | false => exact ⟨_, hos, by simp [passedNodes], hplain⟩
  | true =>
      obtain ⟨hfalse, hstart⟩ := hreactive rfl
      by_cases hbrace : code.toList.head? = some '\x7b'
      · -- the code is put in parentheses, and those do not start a block
        obtain ⟨hparen, hplain'⟩ := h.inParentheses hfalse hplain
        have hbare : startsBare ("(" ++ code ++ ")") = true := by
          simp only [startsBare, String.toList_append]
          rfl
        obtain ⟨harrow, hplain''⟩ := h.behindArrow hparen hplain' hbare
        have hthunk : thunk code true = "() => " ++ ("(" ++ code ++ ")") := by
          simp [thunk, wrapObject, hbrace]
        rw [hthunk]
        exact ⟨_, harrow, by simp [passedNodes, hbrace], hplain''⟩
      · obtain ⟨harrow, hplain'⟩ := h.behindArrow hfalse hplain (hstart.resolve_right hbrace)
        have hthunk : thunk code true = "() => " ++ code := by
          simp [thunk, wrapObject, hbrace]
        rw [hthunk]
        exact ⟨_, harrow, by simp [passedNodes, hbrace], hplain'⟩

/-- **The line of a binding** is a call of the setter with the node and what the operands of the
expression become. -/
theorem bindingLine_calls (h : g.Composes p typed) (names : Reactive) (reference : Option Nat)
    {e : Expression} (html : Bool) (hos : g.operands? typed true e.code = some os)
    (hplain : g.commented typed e.code = false)
    (hreactive : isReactive names e = true → g.operands? typed false e.code = some os ∧
      (startsBare e.code = true ∨ e.code.toList.head? = some '\x7b')) :
    ∃ node, IsTarget reference node ∧
      IsCallOf p typed (bindingLine names reference e html) (setter html (isReactive names e))
        (node :: passedNodes (isReactive names e) e.code os) := by
  obtain ⟨os', hthunk, hnodes, hplain'⟩ := h.operands_thunk hos hplain hreactive
  obtain ⟨⟨o, hnode, htarget⟩, hplain''⟩ := h.behindTarget reference hthunk hplain'
  have hcall := h.asArguments (isName_setter html (isReactive names e)) htarget hplain''
  rw [List.map_cons, hnodes] at hcall
  exact ⟨o.node, hnode, hcall⟩

end Phrasing.Composes

/-- **A text binding passes one value** or several.  Let an expression without comments be read, and let
its text be an expression, in a function as well if the binding is reactive.  Then the line of the
binding is a call of the setter.  It has exactly two arguments, the node at the spot and the expression
or a function without parameters that gives it, exactly if the expression is no sequence or was put in
parentheses because it starts with a brace. -/
theorem textBinding_passes {g : Phrasing} {p : Parser} {typed : Bool} (h : g.Composes p typed)
    (names : Reactive) (reference : Option Nat) (html : Bool) {text : String} {e : Expression} {n : Node}
    (hread : Expression.parse p typed text = .ok e) (htree : e.HasTree p typed n)
    (hplain : g.commented typed e.code = false)
    (hreactive : isReactive names e = true →
      (g.operands? typed false e.code).isSome ∧ e.code.toList.head? ≠ some '\uFEFF') :
    ∃ line args,
      ((Client.renderKind (Client.target reference) (.text e html)).run names).1 = [.line line] ∧
      IsCallOf p typed line (setter html (isReactive names e)) args ∧
      ((∃ node value, args = [node, value] ∧ IsTarget reference node ∧ PassesTree n value) ↔
        n.isSequence = false ∨ isReactive names e = true ∧ e.code.toList.head? = some '\x7b') := by
  obtain ⟨os, hos, rfl, hone⟩ := h.operands htree
  obtain ⟨node, hnode, hcall⟩ := h.bindingLine_calls names reference html hos hplain fun hyes => by
    obtain ⟨hfalse, hmark⟩ := hreactive hyes
    obtain ⟨c, hc, hspace⟩ := exists_head?_of_parse hread
    refine ⟨h.operands_eq hos hfalse, ?_⟩
    rw [hc] at hmark ⊢
    by_cases hbrace : c = '\x7b' <;> simp_all [startsBare]
  refine ⟨_, _, run_renderKind_text names reference e html, hcall, ?_⟩
  rw [hone, ← passedNodes_iff _ _ (h.single hos).1]
  constructor
  · rintro ⟨node', value, hargs, -, hvalue⟩
    exact ⟨value, (List.cons.inj hargs).2, hvalue⟩
  · rintro ⟨value, hargs, hvalue⟩
    exact ⟨node, value, by rw [hargs], hnode, hvalue⟩

/-- An object is put into parentheses behind the arrow, and is passed as one value. -/
theorem textBinding_passes_object :
    let e : Expression := { code := "\x7b sum: a + b \x7d", dependencies := ["a", "b"], assigned := []
                            shape := .other, literal := none }
    let line := "$.Html($refs[1], () => (\x7b sum: a + b \x7d));"
    Expression.parse smallParser false "\x7b sum: a + b \x7d" = .ok e ∧
      ((Client.renderKind "$refs[1]" (.text e true)).run ["a"]).1 = [.line line] ∧
      ∃ n node value, e.HasTree smallParser false n ∧ IsTarget (some 1) node ∧ PassesTree n value ∧
        IsCallOf smallParser false line "Html" [node, value] := by
  intro e line
  have hoperands := smallOperands_atom (a := smallAtoms[3]) (List.getElem_mem _)
  obtain ⟨hparsed, htree⟩ := @parse_smallParser false "\x7b sum: a + b \x7d" _ rfl (by decide) hoperands
  have hread : Expression.parse smallParser false "\x7b sum: a + b \x7d" = .ok e := by
    rw [hparsed]
    decide +kernel
  have hline : ((Client.renderKind "$refs[1]" (.text e true)).run ["a"]).1 = [.line line] := by
    decide +kernel
  obtain ⟨line', args, hline', hcall, hone⟩ := textBinding_passes (composes_smallParser false) ["a"]
    (some 1) true hread htree rfl fun _ => ⟨Option.isSome_of_eq_some hoperands, by decide⟩
  obtain rfl : line = line' := by simpa using hline.symm.trans hline'
  obtain ⟨node, value, rfl, hnode, hvalue⟩ := hone.mpr (.inl rfl)
  exact ⟨hread, hline, _, node, value, htree, hnode, hvalue, hcall⟩

/-- The number of arguments of the call that a program performs. -/
def performedArguments? : Option (List Item) → Option Nat
  | some [⟨.perform (.call _ _ args), _, _⟩] => some args.length
  | _ => none

/-- Two expressions with a comma between them are passed as two values. -/
theorem not_one_value :
    let e : Expression := { code := "a, b", dependencies := ["a", "b"], assigned := []
                            shape := .other, literal := none }
    Expression.parse ecmaScript false "a, b" = .ok e ∧
      ((Client.renderKind "$refs[1]" (.text e false)).run []).1 = [.line "$.text($refs[1], a, b);"] ∧
      ∀ target value, ¬ IsCallOf ecmaScript false "$.text($refs[1], a, b);" "text" [target, value] := by
  intro e
  have hthree : performedArguments? (ecmaScript.program? false "$.text($refs[1], a, b);") = some 3 := by
    decide +kernel
  refine ⟨by decide +kernel, by decide +kernel, ?_⟩
  rintro target value ⟨start, stop, hcall⟩
  rw [hcall] at hthree
  simp [performedArguments?] at hthree

end Stencil.Script
