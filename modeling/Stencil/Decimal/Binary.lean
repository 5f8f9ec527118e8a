/-!
# Numbers with a 53-bit mantissa

A number literal stands for the nearest number `mantissa * 2 ^ exponent` whose mantissa fits in
53 bits and whose exponent lies between -1074 and 971, halves going to the even mantissa.  All
arithmetic is exact, so rounding is one function on quotients of naturals, `Binary.ofRatio`.
-/

namespace Stencil.Decimal

/-- A number as literals denote it: never negative, possibly too large to be finite. -/
inductive Binary where
  | finite (mantissa : Nat) (exponent : Int)
  | infinite
  deriving DecidableEq, Repr

namespace Binary

/-- Numerator and denominator of `num / den / 2 ^ exponent`. -/
def scaled (num den : Nat) (exponent : Int) : Nat × Nat :=
  if 0 ≤ exponent then (num, den <<< exponent.toNat) else (num <<< (-exponent).toNat, den)

/-- The natural nearest to `num / den`, a half going to the even neighbour. -/
def nearest (num den : Nat) : Nat :=
  let quotient := num / den
  let remainder := num % den
  if den < 2 * remainder ∨ (2 * remainder = den ∧ quotient % 2 = 1) then quotient + 1 else quotient

/-- The exponent that gives `num / den` a mantissa of 53 bits, or the least one. -/
def exponentFor (num den : Nat) : Int :=
  let guess : Int := (Nat.log2 num : Int) - (Nat.log2 den : Int) - 52
  let (n, d) := scaled num den guess
  max (if n / d < 1 <<< 52 then guess - 1 else guess) (-1074)

/-- The number nearest to the quotient `num / den`. -/
def ofRatio (num den : Nat) : Binary :=
  if num = 0 then .finite 0 0
  else
    let exponent := exponentFor num den
    let (n, d) := scaled num den exponent
    let mantissa := nearest n d
    let (mantissa, exponent) :=
      if mantissa = 1 <<< 53 then (1 <<< 52, exponent + 1) else (mantissa, exponent)
    if 971 < exponent then .infinite else .finite mantissa exponent

/-- The number nearest to `digits * 10 ^ power`.  Powers far outside the range are settled without
building them. -/
def ofDecimal (digits : Nat) (power : Int) : Binary :=
  if digits = 0 then .finite 0 0
  else
    let magnitude : Int := (Nat.toDigits 10 digits).length + power
    if 400 < magnitude then .infinite
    else if magnitude < -400 then .finite 0 0
    else if 0 ≤ power then ofRatio (digits * Nat.pow 10 power.toNat) 1
    else ofRatio digits (Nat.pow 10 (-power).toNat)

/-- The number that digits in some base denote when they are read one at a time, rounding after
each.  Short digit strings never round before the end. -/
def ofDigits (base : Nat) (digits : List Nat) : Binary :=
  digits.foldl (fun value digit =>
    match value with
    | .infinite => .infinite
    | .finite m e =>
        let (n, d) := if 0 ≤ e then (m <<< e.toNat, 1) else (m, 1 <<< (-e).toNat)
        ofRatio (n * base + digit * d) d) (.finite 0 0)

/-- Numerator and denominator of a finite number. -/
def ratio (mantissa : Nat) (exponent : Int) : Nat × Nat :=
  if 0 ≤ exponent then (mantissa <<< exponent.toNat, 1) else (mantissa, 1 <<< (-exponent).toNat)

end Binary

end Stencil.Decimal
