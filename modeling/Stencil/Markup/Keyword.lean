import Stencil.Markup.Brace
import Stencil.Text.Chars

/-!
# Keywords in block headers

A keyword counts where it stands alone: outside strings and brackets, with no character of a word
and no dot on either side.
-/

namespace Stencil.Markup

open Stencil.Text

/-- Whether the character joins a keyword beside it to a longer word. -/
def joinsWord (c : Char) : Bool := isNamePart c || c == '.'

/-- The change of depth at a character. -/
def depthStep (c : Char) : Int :=
  if c == '(' || c == '[' || c == '\x7b' then 1
  else if c == ')' || c == ']' || c == '\x7d' then -1
  else 0

/-- Whether the keyword stands alone here, after the given character. -/
def standsAlone (keyword : List Char) (before : Option Char) (cs : List Char) : Bool :=
  keyword.isPrefixOf cs && !before.any joinsWord && !(cs.drop keyword.length).head?.any joinsWord

/-- The characters before the first place where the keyword stands alone, and those after it.
`before` is the character in front of the text. -/
def keywordFrom (keyword : List Char) (before : Option Char) (depth : Int) (inside : Inside) :
    List Char → Option (List Char × List Char)
  | [] => none
  | c :: rest =>
      let go (d : Int) (i : Inside) :=
        (keywordFrom keyword (some c) d i rest).map fun (skipped, tail) => (c :: skipped, tail)
      match inside with
      | .escape quote => go depth (.string quote)
      | .string quote => go depth (afterInString quote c)
      | .code =>
          if isQuote c then go depth (.string c)
          else if depthStep c != 0 then go (depth + depthStep c) .code
          else if depth == 0 && standsAlone keyword before (c :: rest) then
            some ([], (c :: rest).drop keyword.length)
          else go depth .code

/-- The text around the first place where the keyword stands alone. -/
def breakKeyword (keyword : String) (before : Option Char) (cs : List Char) :
    Option (List Char × List Char) := keywordFrom keyword.toList before 0 .code cs

/-- Nothing is lost around a keyword. -/
theorem keywordFrom_eq {keyword : List Char} {before : Option Char} {depth : Int} {inside : Inside}
    {cs skipped rest : List Char}
    (h : keywordFrom keyword before depth inside cs = some (skipped, rest)) :
    cs = skipped ++ keyword ++ rest := by
  induction cs generalizing before depth inside skipped rest with
  | nil => simp [keywordFrom] at h
  | cons c tail ih =>
      have step : ∀ d i, (keywordFrom keyword (some c) d i tail).map (fun p => (c :: p.1, p.2)) =
          some (skipped, rest) → c :: tail = skipped ++ keyword ++ rest := by
        intro d i hm
        obtain ⟨⟨a, b⟩, ha, he⟩ := Option.map_eq_some_iff.mp hm
        simp only [Prod.mk.injEq] at he
        obtain ⟨rfl, rfl⟩ := he
        simp [ih ha]
      simp only [keywordFrom] at h
      split at h
      · exact step _ _ h
      · exact step _ _ h
      · split at h
        · exact step _ _ h
        · split at h
          · exact step _ _ h
          · split at h
            · next hk =>
                obtain ⟨rfl, rfl⟩ := Prod.mk.inj (Option.some.inj h)
                simp only [Bool.and_eq_true, standsAlone] at hk
                obtain ⟨t, ht⟩ := List.isPrefixOf_iff_prefix.mp hk.2.1.1
                rw [← ht]
                simp
            · exact step _ _ h

/-- The character that ends at an offset or has the offset inside it, and the characters after
it. -/
def startFrom (before : Option Char) (offset : Nat) : List Char → Option Char × List Char
  | [] => (before, [])
  | c :: rest =>
      if offset = 0 then (before, c :: rest) else startFrom (some c) (offset - c.utf8Size) rest

/-- The offset of the first place at or after another offset where the keyword stands alone. -/
def findKeyword? (text keyword : String) (start : Nat) : Option Nat :=
  let (before, cs) := startFrom none start text.toList
  (breakKeyword keyword before cs).map fun (skipped, _) =>
    byteSize text.toList - byteSize cs + byteSize skipped

/-- The text with `&&` for every `as` that stands alone; `before` is the character in front of
it. -/
def conjoinFrom (before : Option Char) (cs : List Char) : List Char :=
  match h : breakKeyword "as" before cs with
  | none => cs
  | some (skipped, rest) =>
      have : rest.length < cs.length := by
        rw [keywordFrom_eq h]
        simp
        omega
      skipped ++ '&' :: '&' :: conjoinFrom (some 's') rest
termination_by cs.length

/-- The text with `&&` for every `as` that stands alone. -/
def conjoin (text : String) : String := String.ofList (conjoinFrom none text.toList)

end Stencil.Markup
