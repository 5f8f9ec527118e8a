/-!
# Compiler options

What a build tool may choose.  Every option has a default, so that no option at all and the empty
object describe the same compiler.
-/

namespace Stencil

/-- What the generated code runs on. -/
inductive Target where
  /-- The browser: nodes are cloned and bound. -/
  | client
  /-- The server: markup is concatenated. -/
  | server
  deriving DecidableEq, Repr

/-- The word for a target. -/
def Target.word : Target → String
  | .client => "csr"
  | .server => "ssr"

/-- The target with the given word. -/
def Target.ofWord? (word : String) : Option Target :=
  if word == "csr" then some .client else if word == "ssr" then some .server else none

/-- Where scoped styles go. -/
inductive StylePlacement where
  /-- Next to the generated code. -/
  | external
  /-- Into the markup of each component. -/
  | injected
  deriving DecidableEq, Repr

/-- The word for a placement of styles. -/
def StylePlacement.word : StylePlacement → String
  | .external => "external"
  | .injected => "injected"

/-- The placement of styles with the given word. -/
def StylePlacement.ofWord? (word : String) : Option StylePlacement :=
  if word == "external" then some .external
  else if word == "injected" then some .injected
  else none

/-- Bounds on the length of the hashes that scope styles. -/
structure HashBounds where
  min : Nat := 6
  max : Nat := 12
  deriving DecidableEq, Repr

/-- Options for styles. -/
structure StyleOptions where
  placement : StylePlacement := .external
  hash : HashBounds := {}
  deriving DecidableEq, Repr

/-- Options for attributes. -/
structure AttributeOptions where
  /-- Whether `@`, `:`, `#`, `*` before a name and `.words` after it have a meaning. -/
  affix : Bool := true
  deriving DecidableEq, Repr

/-- Options for text and comments. -/
structure TextOptions where
  /-- Whether runs of blanks are kept as written. -/
  whitespace : Bool := false
  /-- Whether blank text at the edges of elements and of the document is dropped. -/
  trim : Bool := true
  /-- Whether comments are kept. -/
  comments : Bool := true
  deriving DecidableEq, Repr

/-- Options for positions. -/
structure PositionOptions where
  /-- Whether nodes carry byte offsets. -/
  index : Bool := false
  /-- Whether nodes carry lines and columns. -/
  loc : Bool := false
  deriving DecidableEq, Repr

/-- Whether nodes carry positions of any kind. -/
def PositionOptions.enabled (p : PositionOptions) : Bool := p.index || p.loc

/-- Options of the compiler. -/
structure Options where
  /-- The name of the root component. -/
  name : String := "Component"
  target : Target := .client
  /-- The module that the generated code imports its runtime from. -/
  runtime : String := "tessera/runtime"
  css : StyleOptions := {}
  attributes : AttributeOptions := {}
  text : TextOptions := {}
  position : PositionOptions := {}
  deriving DecidableEq, Repr

namespace Options

/-- Why options were refused. -/
inductive Fault where
  /-- The text is no JSON or has a value of the wrong kind. -/
  | unreadable
  /-- The shortest hash would be empty. -/
  | zeroMin
  /-- The shortest hash would be longer than the longest. -/
  | minAboveMax (min max : Nat)
  deriving DecidableEq, Repr

/-- The wording of a fault. -/
def Fault.message : Fault → String
  | .unreadable => "Invalid compiler options"
  | .zeroMin => "Invalid compiler options: css.hash.min must be greater than zero"
  | .minAboveMax min max =>
      "Invalid compiler options: css.hash.min (" ++ toString min ++
        ") is greater than css.hash.max (" ++ toString max ++ ")"

/-- Accepts options whose bounds on hashes make sense. -/
def validate (o : Options) : Except Fault Unit :=
  if o.css.hash.min = 0 then .error .zeroMin
  else if o.css.hash.max < o.css.hash.min then .error (.minAboveMax o.css.hash.min o.css.hash.max)
  else .ok ()

end Options

end Stencil
