import Stencil.Script.Language
import Stencil.Text.Trim

/-!
# Imports of a template

Imports in the order in which they were met, each once.  Imports that mean the same have the same
normal form; what is no import is kept as it stands.
-/

namespace Stencil

/-- Imports in normal form. -/
structure Imports where
  texts : List String := []
  deriving DecidableEq, Repr

/-- Adds an import, unless it is there already. -/
def Imports.add (lang : Script.Language) (i : Imports) (text : String) (typescript : Bool) :
    Imports :=
  let code := match lang.normalize typescript text with
    | .ok code => code
    | .error _ => Text.trim text
  if i.texts.contains code then i else ⟨i.texts ++ [code]⟩

end Stencil
