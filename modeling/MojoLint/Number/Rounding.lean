/-!
# Rounding a quotient

The integer nearest to a quotient of two natural numbers, in exact arithmetic.
-/

namespace MojoLint.Number

/-- The natural number nearest to `num / den`; of two that are equally near, the even one. -/
def roundDiv (num den : Nat) : Nat :=
  let quotient := num / den
  let twice := 2 * (num % den)
  if den < twice || (twice == den && quotient % 2 == 1) then quotient + 1 else quotient

end MojoLint.Number
