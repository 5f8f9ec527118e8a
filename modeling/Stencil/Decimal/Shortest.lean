import Stencil.Decimal.Binary

/-!
# The text of a number

A whole number below 10^21 is written with all its digits.  Any other number is written with the
fewest digits that read back as that number, the nearest of them if there are several, and always
positionally: no exponent mark is ever used.
-/

namespace Stencil.Decimal

/-- A decimal `digits * 10 ^ power`. -/
structure Figures where
  digits : Nat
  power : Int
  deriving DecidableEq, Repr

/-- Decimal digits of a natural, most significant first. -/
def digitChars (n : Nat) : List Char := Nat.toDigits 10 n

/-- The decimal written out positionally. -/
def Figures.text (f : Figures) : List Char :=
  let cs := digitChars f.digits
  if 0 ≤ f.power then cs ++ List.replicate f.power.toNat '0'
  else
    let places := (-f.power).toNat
    if cs.length ≤ places then '0' :: '.' :: List.replicate (places - cs.length) '0' ++ cs
    else cs.take (cs.length - places) ++ '.' :: cs.drop (cs.length - places)

/-- The same decimal without a zero as its last digit. -/
def Figures.dropZero (f : Figures) : Figures :=
  if f.digits % 10 = 0 then ⟨f.digits / 10, f.power + 1⟩ else f

/-- Whether `a * 10 ^ power` is below (or, when `closed`, at most) `num / den`. -/
def below (closed : Bool) (a : Nat) (power : Int) (num den : Nat) : Bool :=
  let left := if 0 ≤ power then a * Nat.pow 10 power.toNat * den else a * den
  let right := if 0 ≤ power then num else num * Nat.pow 10 (-power).toNat
  if closed then left ≤ right else left < right

/-- Whether `num / den` is below (or, when `closed`, at most) `a * 10 ^ power`. -/
def above (closed : Bool) (a : Nat) (power : Int) (num den : Nat) : Bool :=
  let left := if 0 ≤ power then a * Nat.pow 10 power.toNat * den else a * den
  let right := if 0 ≤ power then num else num * Nat.pow 10 (-power).toNat
  if closed then right ≤ left else right < left

namespace Binary

/-- The decimals that read back as a number lie between these two ends, which belong to the
interval exactly when the mantissa is even.  The ends are given over a common denominator. -/
structure Interval where
  low : Nat
  value : Nat
  high : Nat
  den : Nat
  closed : Bool

/-- The interval of decimals that round to a finite number. -/
def interval (mantissa : Nat) (exponent : Int) : Interval :=
  let narrow := mantissa == 1 <<< 52 && -1074 < exponent
  let low := if narrow then 4 * mantissa - 1 else 4 * mantissa - 2
  let (unit, den) := ratio 1 (exponent - 2)
  { low := low * unit, value := 4 * mantissa * unit, high := (4 * mantissa + 2) * unit, den
    closed := mantissa % 2 == 0 }

/-- The least power of ten above `num / den`, found near an estimate. -/
def decimalSize (num den : Nat) : Int :=
  let guess : Int := ((Nat.log2 num : Int) - (Nat.log2 den : Int)) * 30103 / 100000 - 1
  let fits (k : Int) : Bool := above false 1 k num den
  if fits guess then guess
  else if fits (guess + 1) then guess + 1
  else if fits (guess + 2) then guess + 2
  else guess + 3

/-- Of the two neighbours of the value on the grid of a power of ten, the nearer that reads
back, the upper one when both are equally near. -/
def gridPoint? (i : Interval) (power : Int) : Option Figures :=
  let (n, d) :=
    if 0 ≤ power then (i.value, i.den * Nat.pow 10 power.toNat)
    else (i.value * Nat.pow 10 (-power).toNat, i.den)
  let floor := n / d
  let rest := n % d
  let inside (a : Nat) : Bool :=
    above i.closed a power i.low i.den && below i.closed a power i.high i.den
  let down := if inside floor then some (Figures.mk floor power) else none
  let up := if inside (floor + 1) then some (Figures.mk (floor + 1) power) else none
  if 2 * rest < d then down <|> up else up <|> down

/-- The first grid, from the coarsest of those tried, on which a decimal reads back. -/
def firstGridPoint? (i : Interval) (size : Int) : Nat → Nat → Option Figures
  | 0, _ => none
  | tries + 1, digits =>
      (gridPoint? i (size - digits)) <|> firstGridPoint? i size tries (digits + 1)

/-- The shortest decimal that reads back as a finite number.  Rounding up to a power of ten can
leave one zero at the end, which is dropped. -/
def shortest (mantissa : Nat) (exponent : Int) : Figures :=
  if mantissa = 0 then ⟨0, 0⟩
  else
    let i := interval mantissa exponent
    ((firstGridPoint? i (decimalSize i.value i.den) 18 1).getD ⟨0, 0⟩).dropZero

/-- The text of a number. -/
def text : Binary → String
  | .infinite => "inf"
  | .finite mantissa exponent =>
      let (num, den) := ratio mantissa exponent
      if num % den = 0 ∧ num / den < Nat.pow 10 21 then String.ofList (digitChars (num / den))
      else String.ofList (shortest mantissa exponent).text

end Binary

end Stencil.Decimal
