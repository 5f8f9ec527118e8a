import Stencil.Proofs.Texts
import Stencil.Script.Language

/-!
# Readers of expressions

The compiler asks a language to read expressions, and gives it texts with spaces around them.  What it
relies on is that these spaces are no part of an expression (`ReadsTrimmed`).  The reader that is built
around a parser is one of this kind, whatever the parser does (`readsTrimmed_parse`).
-/

namespace Stencil.Script

open Stencil.Text

/-- A reader of expressions that does not see the spaces around a text; the code of what it reads is
the text without them. -/
structure ReadsTrimmed (read : String → Except Fault Expression) : Prop where
  trimmed (text : String) : read (trim text) = read text
  code {text : String} {e : Expression} (h : read text = .ok e) : e.code = trim text

/-- The code of an expression is read as the same expression. -/
theorem ReadsTrimmed.again {read : String → Except Fault Expression} (hread : ReadsTrimmed read)
    {text : String} {e : Expression} (h : read text = .ok e) : read e.code = .ok e := by
  rw [hread.code h, hread.trimmed, h]

/-- An expression that was read: its code is the text, trimmed, which is an expression at its start, has
the value of that, and is part of a program in parentheses. -/
theorem exists_of_parse {p : Parser} {typed : Bool} {text : String} {e : Expression}
    (h : Expression.parse p typed text = .ok e) :
    e.code = trim text ∧ e.code.isEmpty = false ∧
      (∃ n, p.expression? typed e.code = some n ∧ e.literal = n.literalText?) ∧
      ∃ items, p.program? typed ("(\n" ++ e.code ++ "\n);") = some items ∧
        e.dependencies = readNames (usesAll p.bindings {} (items.map Item.node)) := by
  simp only [Expression.parse] at h
  split at h
  · cases h
  · next hempty =>
      split at h
      · next n items hstart hprogram =>
          obtain rfl := Except.ok.inj h
          exact ⟨rfl, by simpa using hempty, ⟨n, hstart, rfl⟩, items, hprogram, rfl⟩
      · cases h

/-- The code of an expression is its text, trimmed. -/
theorem code_parse {p : Parser} {typed : Bool} {text : String} {e : Expression}
    (h : Expression.parse p typed text = .ok e) : e.code = trim text :=
  (exists_of_parse h).1

/-- The code of an expression starts with no space. -/
theorem exists_head?_of_parse {p : Parser} {typed : Bool} {text : String} {e : Expression}
    (h : Expression.parse p typed text = .ok e) :
    ∃ c, e.code.toList.head? = some c ∧ isSpace c = false := by
  obtain ⟨hcode, hne, -⟩ := exists_of_parse h
  have htrim : trimList e.code.toList = e.code.toList := by
    simp [hcode, trim, trimList_trimList]
  obtain ⟨c, rest, hcons⟩ : ∃ c rest, e.code.toList = c :: rest := by
    refine List.exists_cons_of_ne_nil fun hnil => ?_
    rw [String.toList_eq_nil_iff.mp hnil] at hne
    cases hne
  rw [hcons]
  exact ⟨c, rfl, (trimList_eq_self_iff.mp htrim).1 c (by rw [hcons]; rfl)⟩

/-- Expressions are read without the spaces around them. -/
theorem parse_trim (p : Parser) (typed : Bool) (text : String) :
    Expression.parse p typed (trim text) = Expression.parse p typed text := by
  have htrim : trim (trim text) = trim text := by
    simp [trim, trimList_trimList]
  simp only [Expression.parse, htrim]

/-- A reader that is built around a parser does not see the spaces around a text. -/
theorem readsTrimmed_parse (p : Parser) (typed : Bool) : ReadsTrimmed (Expression.parse p typed) where
  trimmed := parse_trim p typed
  code := code_parse

/-- What is asked of the readers of a language in every dialect. -/
def Language.ReadsTrimmed (lang : Language) : Prop :=
  ∀ typed, Script.ReadsTrimmed (lang.expression typed)

/-- The readers of JavaScript do not see the spaces around a text. -/
theorem readsTrimmed_javaScript : javaScript.ReadsTrimmed := by
  intro typed
  rw [javaScript, Language.expression_of]
  exact readsTrimmed_parse ecmaScript typed

end Stencil.Script
