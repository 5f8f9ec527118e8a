import Stencil.Digest
import Stencil.Script.Bindings
import Stencil.Script.Expression
import Stencil.Script.Import
import Stencil.Script.Parts
import Stencil.Script.Program

/-!
# The language of embedded code

What the compiler asks of others: to read the expressions and scripts of a template, and to hash its
styles.  A language is built around a parser and a hash, `javaScript` around the grammar of this
library and XXH3.
-/

namespace Stencil.Script

/-- Readers of embedded code, each for a dialect, typed or not, and a text, and a hash of texts. -/
structure Language where
  /-- An expression of a template. -/
  expression : Bool → String → Except Fault Expression
  /-- A script. -/
  script : Bool → String → Except Fault Parts
  /-- The normal form of imports. -/
  normalize : Bool → String → Except Fault String
  /-- The hash of a text. -/
  hash : String → UInt64

/-- The language that a parser reads. -/
def Language.of (p : Parser) (hash : String → UInt64) : Language :=
  ⟨Expression.parse p, Parts.parse p, Script.normalize p, hash⟩

/-- The parser of a language reads its expressions. -/
@[simp] theorem Language.expression_of (p : Parser) (hash : String → UInt64) :
    (Language.of p hash).expression = Expression.parse p := by
  rw [Language.of]

/-- The grammar of JavaScript and TypeScript. -/
def ecmaScript : Parser := ⟨program?, expression?, bindings⟩

/-- JavaScript, and TypeScript as its typed dialect. -/
def javaScript : Language := .of ecmaScript Digest.xxh3

/-- With JavaScript, styles are hashed by XXH3. -/
theorem contentHash_javaScript : Style.contentHash javaScript.hash = Digest.ofText := by
  funext css
  rw [Digest.ofText, javaScript, Language.of]

end Stencil.Script
