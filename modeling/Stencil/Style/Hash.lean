/-!
# Hashes of styles

A style is hashed to 64 bits, which are written in base 36.
-/

namespace Stencil.Style

/-- A digit of base 36. -/
def digit36 (n : Nat) : Char := if n < 10 then Char.ofNat (48 + n) else Char.ofNat (87 + n)

/-- A number in base 36. -/
def base36 (n : Nat) : List Char :=
  if n < 36 then [digit36 n] else base36 (n / 36) ++ [digit36 (n % 36)]

/-- The hash of a style, in full. -/
def contentHash (hash : String → UInt64) (css : String) : String :=
  String.ofList (base36 (hash css).toNat)

end Stencil.Style
