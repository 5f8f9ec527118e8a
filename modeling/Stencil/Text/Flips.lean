/-!
# Sets of numbers given by their flips

A set of numbers is listed by the points at which membership changes: outside before the first
point, inside from the first to just before the second, and so on.  `Flips.holds` reads
membership off such a list, and `Flips.holds_cons` is its one law.
-/

namespace Stencil.Text

/-- Whether a number lies in the set with the given increasing change points. -/
def Flips.holds : List Nat → Nat → Bool
  | [], _ => false
  | flip :: rest, n => if n < flip then false else !Flips.holds rest n

/-- **One flip.**  Below the first change point nothing is a member; from there on membership is
the opposite of what the remaining points say. -/
theorem Flips.holds_cons (flip : Nat) (rest : List Nat) (n : Nat) :
    Flips.holds (flip :: rest) n = if n < flip then false else !Flips.holds rest n := rfl

end Stencil.Text
