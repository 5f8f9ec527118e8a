import Stencil.Script.Reader

/-!
# Expressions as targets of assignments

An expression is read first and turned into a target when an assignment operator follows.  Names
and members are targets; arrays and objects are taken apart, where `a = b` inside them stands for
a default value.
-/

namespace Stencil.Script.Grammar

open Reader

/-- The expression under parentheses and type operators. -/
def innermost : Node → Node
  | .paren e => innermost e
  | .cast e _ => innermost e
  | .assertion _ e => innermost e
  | .nonNull e => innermost e
  | e => e

/-- Whether a name or a member is meant. -/
def isPlace : Node → Bool
  | .ident _ | .member _ _ | .index _ _ | .privateMember _ _ => true
  | _ => false

/-- A target that is not taken apart: a name, a member, or one of these under type operators. -/
def simpleTarget? : Node → Option Node
  | .ident name => some (.ident name)
  | .member object name => some (.member object name)
  | .index object key => some (.index object key)
  | .privateMember object name => some (.privateMember object name)
  | .paren (.array _ _) => none
  | .paren (.object _ _) => none
  | .paren e => simpleTarget? e
  | .cast e t => if isPlace (innermost e) then some (.cast e t) else none
  | .assertion t e => if isPlace (innermost e) then some (.assertion t e) else none
  | .nonNull e => if isPlace (innermost e) then some (.nonNull e) else none
  | _ => none

mutual

/-- The expression as a target, and the shorthand defaults it claims. -/
def target? : Node → Option (Node × List Nat)
  | .array elements trailing =>
      (targetElements? trailing elements).map fun (es, claims) => (.arrayTarget es, claims)
  | .object members trailing =>
      (targetMembers? trailing members).map fun (ms, claims) => (.objectTarget ms, claims)
  | .ident name => some (.ident name, [])
  | .member object name => some (.member object name, [])
  | .index object key => some (.index object key, [])
  | .privateMember object name => some (.privateMember object name, [])
  | .paren e => (simpleTarget? (.paren e)).map (·, [])
  | .cast e t => (simpleTarget? (.cast e t)).map (·, [])
  | .assertion t e => (simpleTarget? (.assertion t e)).map (·, [])
  | .nonNull e => (simpleTarget? (.nonNull e)).map (·, [])
  | _ => none

/-- The expression as a target that may have a default value. -/
def defaultedTarget? : Node → Option (Node × List Nat)
  | .assign operator target value =>
      if operator == "=" then some (.defaulted target value, []) else none
  | .array elements trailing =>
      (targetElements? trailing elements).map fun (es, claims) => (.arrayTarget es, claims)
  | .object members trailing =>
      (targetMembers? trailing members).map fun (ms, claims) => (.objectTarget ms, claims)
  | .elision => some (.elision, [])
  | e => (simpleTarget? e).map (·, [])

/-- The elements of an array as targets; only the last may take the rest. -/
def targetElements? (trailing : Bool) : List Node → Option (List Node × List Nat)
  | [] => some ([], [])
  | .spread e :: rest =>
      if rest.isEmpty && !trailing then
        (target? e).map fun (t, claims) => ([.restTarget t], claims)
      else none
  | e :: rest =>
      match defaultedTarget? e, targetElements? trailing rest with
      | some (t, claims), some (ts, more) => some (t :: ts, claims ++ more)
      | _, _ => none

/-- The members of an object as targets; only the last may take the rest. -/
def targetMembers? (trailing : Bool) : List Node → Option (List Node × List Nat)
  | [] => some ([], [])
  | .spread e :: rest =>
      if rest.isEmpty && !trailing then
        (target? e).map fun (t, claims) => ([.restTarget t], claims)
      else none
  | .shorthand name :: rest =>
      (targetMembers? trailing rest).map fun (ts, claims) => (.shorthand name :: ts, claims)
  | .shorthandDefault name start value :: rest =>
      (targetMembers? trailing rest).map fun (ts, claims) =>
        (.defaulted (.shorthand name) value :: ts, start :: claims)
  | .property key value :: rest =>
      match defaultedTarget? value, targetMembers? trailing rest with
      | some (t, claims), some (ts, more) => some (.property key t :: ts, claims ++ more)
      | _, _ => none
  | _ :: _ => none

end

/-- Turns an expression into a target and lets it claim its shorthand defaults. -/
def target (e : Node) : Reader Node := fun _ c =>
  match target? e with
  | some (t, claims) => some (t, { c with pending := c.pending.filter (!claims.contains ·) })
  | none => none

/-- Turns an expression into a target that is not taken apart. -/
def simpleTarget (e : Node) : Reader Node :=
  match simpleTarget? e with
  | some t => pure t
  | none => fail

end Stencil.Script.Grammar
