/-!
# Tokens of markup

Texts, comments, tags and raw texts, each with the offsets where it starts and ends, and the
problems that reading them can meet.
-/

namespace Stencil.Markup

/-- How a value is written. -/
inductive Quote where
  | double | single | brace | unquoted
  deriving DecidableEq, Repr

/-- An attribute as it stands in a tag. -/
structure AttributeToken where
  name : String
  value : Option (String × Quote)
  /-- The attribute as it is written. -/
  raw : String
  start : Nat
  stop : Nat
  deriving DecidableEq, Repr

/-- What a token is. -/
inductive Lexeme where
  | text (text : String)
  | comment (content : String)
  | opening (name : String) (attributes : List AttributeToken) (selfClosing : Bool)
  | closing (name : String)
  /-- The content of an element that holds no markup. -/
  | raw (text : String)
  deriving DecidableEq, Repr

/-- A token and the offsets where it starts and ends. -/
structure Token where
  lexeme : Lexeme
  start : Nat
  stop : Nat
  deriving DecidableEq, Repr

/-- A problem with the markup of a template. -/
inductive Problem where
  | unterminatedComment
  | endInsideTag (name : String)
  | unterminatedValue
  | unterminatedExpression
  | unterminatedClosing (name : String)
  | unexpectedClosing (name : String)
  | unclosed (name : String)
  | noNodes
  deriving DecidableEq, Repr

/-- The wording of a problem. -/
def Problem.message : Problem → String
  | .unterminatedComment => "Unterminated comment"
  | .endInsideTag name => "Unexpected end of input inside <" ++ name ++ ">"
  | .unterminatedValue => "Unterminated attribute value"
  | .unterminatedExpression => "Unterminated attribute expression"
  | .unterminatedClosing name => "Unterminated closing tag </" ++ name
  | .unexpectedClosing name => "Unexpected closing tag \"" ++ name ++ "\""
  | .unclosed name => "Unclosed element \"" ++ name ++ "\""
  | .noNodes => "Template produced no nodes"

/-- A problem and the offsets of the text that has it. -/
structure Finding where
  problem : Problem
  start : Nat
  stop : Nat
  deriving DecidableEq, Repr

end Stencil.Markup
