import Stencil.Script.Parser

/-!
# Names that constructs bind

The scopes of functions, classes, blocks and types, and the names that each of them binds.
-/

namespace Stencil.Script

/-- Names that a statement binds in the scope it stands in, hoisted variables apart. -/
def boundHere : Node → Scope
  | .variables .hoisted _ => {}
  | .variables k ds => .ofValues (declaredNames (.variables k ds))
  | .function .declaration name _ _ _ _ => .ofValues name.toList
  | .klass true name _ _ _ _ => .ofBoth name.toList
  | .typeDeclaration name _ _ => .ofTypes [name]
  | .enumeration name _ => .ofBoth [name]
  | .space name _ => .ofBoth name.toList
  | .alias name _ => .ofBoth [name]
  | .labelled body => boundHere body
  | .choice _ yes no => (boundBranch yes).join (boundBranch no)
  | .exporting _ declaration => boundHere declaration
  | .exportingDefault value => boundHere value
  | _ => {}
where
  /-- Names that a branch binds outside itself: only those of functions. -/
  boundBranch : Node → Scope
    | .function .declaration name _ _ _ _ => .ofValues name.toList
    | _ => {}

/-- Names that some statements bind in the scope they stand in, hoisted variables apart. -/
def boundIn (body : List Node) : Scope := .all (body.map boundHere)

mutual

/-- Variables that a statement hoists to the function around it. -/
def hoisted : Node → List String
  | .variables .hoisted ds => declaredNames (.variables .hoisted ds)
  | .block body => hoistedAll body
  | .choice _ yes no => hoisted yes ++ hoisted no
  | .count start _ _ body => hoisted start ++ hoisted body
  | .each left _ body => hoisted left ++ hoisted body
  | .repeat first second => hoisted first ++ hoisted second
  | .labelled body => hoisted body
  | .switch _ cases => hoistedAll cases
  | .case _ body => hoistedAll body
  | .guarded block handler final => hoisted block ++ hoisted handler ++ hoisted final
  | .handler _ body => hoistedAll body
  | .exporting _ declaration => hoisted declaration
  | _ => []

/-- Variables that some statements hoist to the function around them. -/
def hoistedAll : List Node → List String
  | [] => []
  | s :: rest => hoisted s ++ hoistedAll rest

end

/-- Names that the body of a function binds. -/
def bodyScope (body : List Node) : Scope := (boundIn body).join (.ofValues (hoistedAll body))

/-- Names that parameters bind. -/
def paramScope (params : List Node) : Scope := .ofValues (params.flatMap patternNames)

/-- Names that type parameters bind. -/
def typeParamScope (types : List Node) : Scope :=
  .ofTypes (types.filterMap fun t => match t with | .typeParameter name _ _ => some name | _ => none)

mutual

/-- Names that a type infers for the scope around it. -/
def inferred : Node → List String
  | .typeParameter name bound _ => name :: inferred bound
  | .typeName _ arguments => inferredAll arguments
  | .typeQuery _ arguments => inferredAll arguments
  | .typeGroup parts => inferredAll parts
  | .typeScope _ params parts => inferredAll params ++ inferredAll parts
  | .typed _ type => inferred type
  | .restPattern p => inferred p
  | .conditionalType check _ _ no => inferred check ++ inferred no
  | _ => []

/-- Names that some types infer for the scope around them. -/
def inferredAll : List Node → List String
  | [] => []
  | t :: rest => inferred t ++ inferredAll rest

end

/-- The statements of a clause. -/
def caseBody : Node → List Node
  | .case _ body => body
  | _ => []

/-- The names that the constructs of scripts bind. -/
def bindings : Bindings where
  function role name types params body :=
    let own := match role with
      | .expression => Scope.ofValues name.toList
      | _ => {}
    .all [own, typeParamScope types, paramScope params, bodyScope body]
  klass declared name types :=
    (typeParamScope types).join (if declared then {} else .ofBoth name.toList)
  block := boundIn
  cases clauses := boundIn (clauses.flatMap caseBody)
  loop := boundHere
  handler pattern body := (paramScope [pattern]).join (boundIn body)
  signature types params := (typeParamScope types).join (paramScope params)
  declaration := typeParamScope
  inferred bound := .ofTypes (inferred bound)
  members ms := .ofValues
    (ms.filterMap fun m => match m with | .property (.key k) _ => some k | _ => none)
  space := bodyScope

end Stencil.Script
