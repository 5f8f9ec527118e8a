import Stencil.Decimal.Binary

/-!
# Syntax trees of scripts

One type `Node` holds expressions, patterns, statements and types.  It keeps what the compiler asks
of a script: which names are read, written and bound in which scope, what the callee and the
arguments of a call are, and which statements bring names in and out of the module.  A part that is
left out is `absent`.
-/

namespace Stencil.Script

open Stencil.Decimal (Binary)

/-- A literal value. -/
inductive Literal where
  | string (value : String)
  | number (value : Binary)
  | boolean (value : Bool)
  | null
  | bigint
  | regex
  deriving DecidableEq, Repr

/-- How variables are declared. -/
inductive VariableKind where
  /-- `var`: bound in the whole function. -/
  | hoisted
  /-- `let`: bound in the block. -/
  | mutable
  /-- `const`: bound in the block, assigned once. -/
  | constant
  /-- `using`: bound in the block, disposed of at its end. -/
  | resource
  deriving DecidableEq, Repr

/-- Where a function stands, which decides where its own name is bound. -/
inductive FunctionRole where
  | declaration | expression | method
  deriving DecidableEq, Repr

/-- A name as modules exchange it: a word or a string. -/
inductive ModuleName where
  | word (text : String)
  | quoted (text : String)
  deriving DecidableEq, Repr

/-- The text of a module name. -/
def ModuleName.text : ModuleName → String
  | .word text => text
  | .quoted text => text

/-- One name in the braces of an import. -/
structure ImportName where
  imported : ModuleName
  localName : String
  typeOnly : Bool
  deriving DecidableEq, Repr

/-- An import statement. -/
structure Import where
  typeOnly : Bool := false
  /-- `source` or `defer` before the bindings. -/
  phase : Option String := none
  defaultName : Option String := none
  namespaceName : Option String := none
  /-- The names in braces; `none` if there are no braces. -/
  names : Option (List ImportName) := none
  source : String
  /-- The word before the attributes, and the attributes. -/
  attributes : Option (String × List (ModuleName × String)) := none
  deriving DecidableEq, Repr

/-- A node of a syntax tree. -/
inductive Node where
  | absent
  -- expressions
  | ident (name : String)
  | literal (value : Literal)
  | this
  | parent
  | metaProperty
  | template (holes : List Node)
  | tagged (tag : Node) (types holes : List Node)
  | array (elements : List Node) (trailing : Bool)
  | object (members : List Node) (trailing : Bool)
  | spread (value : Node)
  | elision
  | property (key value : Node)
  | shorthand (name : String)
  | shorthandDefault (name : String) (start : Nat) (value : Node)
  | method (decorators : List Node) (key function : Node)
  | field (decorators : List Node) (key type value : Node)
  | key (name : String)
  | computed (key : Node)
  | function (role : FunctionRole) (name : Option String) (types params : List Node)
      (result : Node) (body : List Node)
  | arrow (types params : List Node) (result : Node) (body : List Node)
  | klass (declared : Bool) (name : Option String) (decorators types heritage members : List Node)
  | member (object : Node) (name : String)
  | index (object key : Node)
  | privateMember (object : Node) (name : String)
  | call (callee : Node) (types arguments : List Node)
  | construct (callee : Node) (types arguments : List Node)
  | importCall (arguments : List Node)
  | chain (expression : Node)
  | unary (operator : String) (operand : Node)
  | update (target : Node)
  | binary (operator : String) (left right : Node)
  | logical (operator : String) (left right : Node)
  | conditional (test yes no : Node)
  | assign (operator : String) (target value : Node)
  | sequence (expressions : List Node)
  | paren (expression : Node)
  | await (operand : Node)
  | yield (operand : Node)
  | cast (expression type : Node)
  | assertion (type expression : Node)
  | nonNull (expression : Node)
  | instantiation (expression : Node) (types : List Node)
  -- targets of destructuring assignments
  | arrayTarget (elements : List Node)
  | objectTarget (members : List Node)
  | defaulted (target value : Node)
  | restTarget (target : Node)
  -- patterns that bind names
  | bind (name : String)
  | arrayPattern (elements : List Node)
  | objectPattern (members : List Node)
  | patternDefault (pattern value : Node)
  | restPattern (pattern : Node)
  | typed (pattern type : Node)
  | parameter (decorators : List Node) (pattern : Node)
  -- statements
  | perform (expression : Node)
  | variables (kind : VariableKind) (declarators : List Node)
  | declarator (pattern value : Node)
  | block (body : List Node)
  | empty
  | choice (test yes no : Node)
  | count (start test step body : Node)
  | each (left right body : Node)
  | repeat (test body : Node)
  | jump (value : Node)
  | labelled (body : Node)
  | switch (subject : Node) (cases : List Node)
  | case (test : Node) (body : List Node)
  | guarded (block handler final : Node)
  | handler (pattern : Node) (body : List Node)
  | importing (clause : Import)
  | exporting (names : List String) (declaration : Node)
  | exportingDefault (value : Node)
  | exportingAll (name : Option String)
  -- types and the declarations made of them
  | typeName (name : String) (arguments : List Node)
  | typeQuery (name : String) (arguments : List Node)
  | typeGroup (parts : List Node)
  | typeScope (types params parts : List Node)
  | typeParameter (name : String) (constraint default : Node)
  | conditionalType (check bound yes no : Node)
  | typeDeclaration (name : String) (types parts : List Node)
  | enumeration (name : String) (members : List Node)
  | space (name : Option String) (body : List Node)
  | alias (name : String) (target : Node)
  deriving Repr, Inhabited

/-- Names that a pattern binds. -/
def patternNames : Node → List String
  | .bind name => [name]
  | .typed p _ => patternNames p
  | .patternDefault p _ => patternNames p
  | .restPattern p => patternNames p
  | .parameter _ p => patternNames p
  | .property _ p => patternNames p
  | .arrayPattern elements => all elements
  | .objectPattern members => all members
  | _ => []
where
  /-- Names that some patterns bind. -/
  all : List Node → List String
    | [] => []
    | p :: rest => patternNames p ++ all rest

/-- Names that a declaration gives to a module that exports it. -/
def declaredNames : Node → List String
  | .variables _ ds =>
      ds.flatMap fun d => match d with | .declarator p _ => patternNames p | _ => []
  | .function _ name _ _ _ _ => name.toList
  | .klass _ name _ _ _ _ => name.toList
  | _ => []

end Stencil.Script
