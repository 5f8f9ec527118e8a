import Stencil.Script.Parser

/-!
# Names used from the module's scope

`uses` lists the names that a tree reads and assigns, in the order in which they are written, and
leaves out those that a scope inside the tree binds: parameters, locals of functions and blocks, own
names of function and class expressions.  Values and types are looked up apart, since a name may be
bound as one and used as the other.
-/

namespace Stencil.Script

/-- What is done with a name of the module's scope or of no scope. -/
inductive Use where
  | read (name : String)
  | assigned (name : String)
  deriving DecidableEq, Repr

/-- The name at the root of a target, through members and parentheses. -/
def root? : Node → Option String
  | .ident name => some name
  | .member object _ => root? object
  | .index object _ => root? object
  | .privateMember object _ => root? object
  | .paren e => root? e
  | _ => none

namespace Scope

/-- A use of a value, unless the scope binds it. -/
def value (s : Scope) (name : String) : List Use :=
  if s.values.contains name then [] else [.read name]

/-- A use of a type, unless the scope binds it. -/
def type (s : Scope) (name : String) : List Use :=
  if s.types.contains name then [] else [.read name]

/-- An assignment to the root of a target, if it has one and the scope does not bind it. -/
def assigns (s : Scope) (target : Node) : List Use :=
  match root? target with
  | some name => if s.values.contains name then [] else [.assigned name]
  | none => []

end Scope

mutual

/-- Names of the module's scope that a tree reads and assigns, as they are written. -/
def uses (r : Bindings) (s : Scope) : Node → List Use
  | .absent | .literal _ | .this | .parent | .metaProperty | .elision | .key _ | .bind _ => []
  | .empty | .importing _ | .exportingAll _ => []
  | .ident name => s.value name
  | .template holes => usesAll r s holes
  | .tagged tag types holes => uses r s tag ++ usesAll r s types ++ usesAll r s holes
  | .array elements _ => usesAll r s elements
  | .object members _ => usesAll r s members
  | .spread e => uses r s e
  | .property key value => uses r s key ++ uses r s value
  | .shorthand name => s.value name
  | .shorthandDefault name _ value => s.value name ++ uses r s value
  | .method decorators key function => usesAll r s decorators ++ uses r s key ++ uses r s function
  | .field decorators key type value =>
      usesAll r s decorators ++ uses r s key ++ uses r s type ++ uses r s value
  | .computed key => uses r s key
  | .function role name types params result body =>
      let t := (r.function role name types params body).join s
      usesAll r t types ++ usesAll r t params ++ uses r t result ++ usesAll r t body
  | .arrow types params result body =>
      let t := (r.function .method none types params body).join s
      usesAll r t types ++ usesAll r t params ++ uses r t result ++ usesAll r t body
  | .klass declared name decorators types heritage members =>
      let t := (r.klass declared name types).join s
      usesAll r s decorators ++ usesAll r t types ++ usesAll r t heritage ++ usesAll r t members
  | .member object _ => uses r s object
  | .index object key => uses r s object ++ uses r s key
  | .privateMember object _ => uses r s object
  | .call callee types arguments => uses r s callee ++ usesAll r s types ++ usesAll r s arguments
  | .construct callee types arguments => uses r s callee ++ usesAll r s types ++ usesAll r s arguments
  | .importCall arguments => usesAll r s arguments
  | .chain e => uses r s e
  | .unary _ e => uses r s e
  | .update target => s.assigns target ++ uses r s target
  | .binary _ left right => uses r s left ++ uses r s right
  | .logical _ left right => uses r s left ++ uses r s right
  | .conditional test yes no => uses r s test ++ uses r s yes ++ uses r s no
  | .assign _ target value => s.assigns target ++ uses r s target ++ uses r s value
  | .sequence es => usesAll r s es
  | .paren e => uses r s e
  | .await e => uses r s e
  | .yield e => uses r s e
  | .cast e type => uses r s e ++ uses r s type
  | .assertion type e => uses r s type ++ uses r s e
  | .nonNull e => uses r s e
  | .instantiation e types => uses r s e ++ usesAll r s types
  | .arrayTarget elements => usesAll r s elements
  | .objectTarget members => usesAll r s members
  | .defaulted target value => uses r s target ++ uses r s value
  | .restTarget target => uses r s target
  | .arrayPattern elements => usesAll r s elements
  | .objectPattern members => usesAll r s members
  | .patternDefault pattern value => uses r s pattern ++ uses r s value
  | .restPattern pattern => uses r s pattern
  | .typed pattern type => uses r s pattern ++ uses r s type
  | .parameter decorators pattern => usesAll r s decorators ++ uses r s pattern
  | .perform e => uses r s e
  | .variables _ declarators => usesAll r s declarators
  | .declarator pattern value => uses r s pattern ++ uses r s value
  | .block body => usesAll r ((r.block body).join s) body
  | .choice test yes no => uses r s test ++ uses r s yes ++ uses r s no
  | .count start test step body =>
      let t := (r.loop start).join s
      uses r t start ++ uses r t test ++ uses r t step ++ uses r t body
  | .each left right body =>
      let t := (r.loop left).join s
      uses r t left ++ uses r t right ++ uses r t body
  | .repeat first second => uses r s first ++ uses r s second
  | .jump value => uses r s value
  | .labelled body => uses r s body
  | .switch subject cases =>
      let t := (r.cases cases).join s
      uses r s subject ++ usesAll r t cases
  | .case test body => uses r s test ++ usesAll r s body
  | .guarded block handler final => uses r s block ++ uses r s handler ++ uses r s final
  | .handler pattern body =>
      let t := (r.handler pattern body).join s
      uses r t pattern ++ usesAll r t body
  | .exporting _ declaration => uses r s declaration
  | .exportingDefault value => uses r s value
  | .typeName name arguments => s.type name ++ usesAll r s arguments
  | .typeQuery name arguments => s.value name ++ usesAll r s arguments
  | .typeGroup parts => usesAll r s parts
  | .typeScope types params parts =>
      let t := (r.signature types params).join s
      usesAll r t types ++ usesAll r t params ++ usesAll r t parts
  | .typeParameter _ bound default => uses r s bound ++ uses r s default
  | .conditionalType check bound yes no =>
      let t := (r.inferred bound).join s
      uses r s check ++ uses r t bound ++ uses r t yes ++ uses r s no
  | .typeDeclaration _ types parts =>
      let t := (r.declaration types).join s
      usesAll r t types ++ usesAll r t parts
  | .enumeration _ members => usesAll r ((r.members members).join s) members
  | .space _ body => usesAll r ((r.space body).join s) body
  | .alias _ target => uses r s target

/-- Names of the module's scope that some trees read and assign, as they are written. -/
def usesAll (r : Bindings) (s : Scope) : List Node → List Use
  | [] => []
  | n :: rest => uses r s n ++ usesAll r s rest

end

/-- The texts in the order of their first places, each once. -/
def distinct (names : List String) : List String :=
  (names.foldl (fun found name => if found.contains name then found else name :: found) []).reverse

/-- Names that the trees read from the module's scope, in the order of first use. -/
def readNames (found : List Use) : List String :=
  distinct (found.filterMap fun u => match u with | .read name => some name | _ => none)

/-- Names of the module's scope that the trees assign, in the order of first assignment. -/
def assignedNames (found : List Use) : List String :=
  distinct (found.filterMap fun u => match u with | .assigned name => some name | _ => none)

end Stencil.Script
