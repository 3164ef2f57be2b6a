import MojoLint.Number.Rounding
import MojoLint.Text.Basic

/-!
# Binary floating-point numbers

An average is a number of the binary interchange format with 64 bits: a quotient is rounded to 53
significant bits, and what is printed is the rounded number, not the quotient. Only numbers that
are not negative are needed, and a quotient that is too large for the format does not arise.
-/

namespace MojoLint.Number

/-- The number `mantissa * 2 ^ exponent`. -/
structure Binary64 where
  mantissa : Nat
  exponent : Int
deriving DecidableEq

/-- The exponent of the largest power of two that is not above `num / den`, for positive `num`
and `den`. -/
def log2Ratio (num den : Nat) : Int :=
  let k : Int := num.log2 - den.log2
  if num * Nat.pow 2 (-k).toNat < den * Nat.pow 2 k.toNat then k - 1 else k

namespace Binary64

/-- The number nearest to `num / den`, a tie going to the even mantissa. It has 53 significant
bits unless its exponent would fall below that of the smallest number of the format. -/
def ofRatio (num den : Nat) : Binary64 :=
  if num = 0 then ⟨0, 0⟩
  else
    let exponent := max (log2Ratio num den - 52) (-1074)
    ⟨roundDiv (num * Nat.pow 2 (-exponent).toNat) (den * Nat.pow 2 exponent.toNat), exponent⟩

/-- The number of a natural number. -/
def ofNat (n : Nat) : Binary64 := ofRatio n 1

/-- The 64 bits of the interchange format. A mantissa of 53 bits hides its leading bit, and one
that was rounded up to `2 ^ 53` carries into the exponent. -/
def bits (x : Binary64) : UInt64 :=
  let hidden := Nat.pow 2 52
  if x.mantissa < hidden then x.mantissa.toUInt64
  else ((x.exponent + 1075).toNat * hidden + (x.mantissa - hidden)).toUInt64

/-- The number in tenths, rounded to the nearest one and to the even one of two. -/
def tenths (x : Binary64) : Nat :=
  roundDiv (x.mantissa * 10 * Nat.pow 2 x.exponent.toNat) (Nat.pow 2 (-x.exponent).toNat)

/-- The number written with one decimal place. -/
def toText (x : Binary64) : Text :=
  Text.ofNat (x.tenths / 10) ++ "." ++ Text.ofNat (x.tenths % 10)

end Binary64

end MojoLint.Number
