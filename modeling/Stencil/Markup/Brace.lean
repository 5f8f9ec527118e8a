import Stencil.Text.Offset

/-!
# Braces

A span in braces ends at the brace that closes the first one.  Braces inside strings do not count,
and a backslash inside a string takes the next character with it.
-/

namespace Stencil.Markup

open Stencil.Text

/-- What a scan for a closing brace is inside of. -/
inductive Inside where
  | code
  | string (quote : Char)
  /-- Just after a backslash in a string. -/
  | escape (quote : Char)
  deriving DecidableEq, Repr

/-- Whether the character opens a string. -/
def isQuote (c : Char) : Bool := c == '\'' || c == '"' || c == '\x60'

/-- Inside a string, what follows a character is inside of. -/
def afterInString (quote c : Char) : Inside :=
  if c == '\\' then .escape quote else if c == quote then .code else .string quote

/-- The characters before the brace that closes the outermost of `depth + 1` open ones, and those
after it. -/
def closing (depth : Nat) (inside : Inside) : List Char → Option (List Char × List Char)
  | [] => none
  | c :: rest =>
      let go (d : Nat) (i : Inside) :=
        (closing d i rest).map fun (inner, tail) => (c :: inner, tail)
      match inside with
      | .escape quote => go depth (.string quote)
      | .string quote => go depth (afterInString quote c)
      | .code =>
          if c == '\x7d' then
            match depth with
            | 0 => some ([], rest)
            | d + 1 => go d .code
          else if c == '\x7b' then go (depth + 1) .code
          else if isQuote c then go depth (.string c)
          else go depth .code

/-- The inner characters of the braces that start a text, and what follows them. -/
def braceSpan : List Char → Option (List Char × List Char)
  | '\x7b' :: rest => closing 0 .code rest
  | _ => none

/-- Nothing is lost around the closing brace. -/
theorem closing_eq {depth : Nat} {inside : Inside} {cs inner rest : List Char}
    (h : closing depth inside cs = some (inner, rest)) : cs = inner ++ '\x7d' :: rest := by
  induction cs generalizing depth inside inner rest with
  | nil => simp [closing] at h
  | cons c tail ih =>
      have step : ∀ d i, (closing d i tail).map (fun p => (c :: p.1, p.2)) = some (inner, rest) →
          c :: tail = inner ++ '\x7d' :: rest := by
        intro d i hm
        obtain ⟨⟨a, b⟩, ha, he⟩ := Option.map_eq_some_iff.mp hm
        simp only [Prod.mk.injEq] at he
        obtain ⟨rfl, rfl⟩ := he
        simp [ih ha]
      simp only [closing] at h
      split at h
      · exact step _ _ h
      · exact step _ _ h
      · split at h
        · next hc =>
            split at h
            · obtain ⟨rfl, rfl⟩ := Prod.mk.inj (Option.some.inj h)
              simp_all
            · exact step _ _ h
        · split at h
          · exact step _ _ h
          · split at h
            · exact step _ _ h
            · exact step _ _ h

/-- Nothing is lost around a span in braces. -/
theorem braceSpan_eq {cs inner rest : List Char} (h : braceSpan cs = some (inner, rest)) :
    cs = '\x7b' :: (inner ++ '\x7d' :: rest) := by
  unfold braceSpan at h
  split at h
  · rw [closing_eq h]
  · simp at h

/-- The offset of the brace that closes the one at the given offset. -/
def closingBrace? (text : String) (start : Nat) : Option Nat :=
  match cutAt? start text.toList with
  | some (_, after) => (braceSpan after).map fun (inner, _) => start + 1 + byteSize inner
  | none => none

end Stencil.Markup
