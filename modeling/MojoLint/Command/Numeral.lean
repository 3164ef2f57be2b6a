import MojoLint.Text.Basic

/-!
# Numerals

A number on a command line can be written in four bases. A mark in front of the digits tells the
base, and so does a zero in front of another digit, which stands for base eight. Without any of
them the digits are decimal. A number is read only if it fits into 32 bits.
-/

namespace MojoLint.Command

/-- The value of a digit. The letters `a` to `f`, in either case, follow the decimal digits. -/
def digitValue? (b : UInt8) : Option Nat :=
  if Byte.isDigit b then some (b.toNat - 48)
  else if 97 ≤ b && b ≤ 102 then some (b.toNat - 87)
  else if 65 ≤ b && b ≤ 70 then some (b.toNat - 55)
  else none

/-- The number `n` with one more digit behind it. -/
def withDigit? (base n : Nat) (b : UInt8) : Option Nat :=
  match digitValue? b with
  | some d => if d < base then some (base * n + d) else none
  | none => none

/-- The value of digits, at least one. -/
def digitsValue? (base : Nat) (digits : Text) : Option Nat :=
  if digits.isEmpty then none else digits.foldlM (withDigit? base) 0

/-- The marks of the bases. -/
def baseMarks : List (Text × Nat) :=
  [("0x", 16), ("0X", 16), ("0b", 2), ("0B", 2), ("0o", 8)]

/-- The base of an unsigned numeral and the digits without the mark. -/
def baseAndDigits (t : Text) : Nat × Text :=
  match baseMarks.find? fun entry => Text.startsWith t entry.1 with
  | some (mark, base) => (base, t.drop mark.length)
  | none =>
    match t with
    | a :: b :: rest => if a = Byte.zero && Byte.isDigit b then (8, b :: rest) else (10, t)
    | _ => (10, t)

/-- The value of an unsigned numeral. -/
def natValue? (t : Text) : Option Nat := digitsValue? (baseAndDigits t).1 (baseAndDigits t).2

/-- Whether a number fits into 32 bits. -/
def fits (n : Int) : Bool := Int32.minValue.toInt ≤ n && n ≤ Int32.maxValue.toInt

/-- The value of a numeral with an optional minus sign. -/
def intValue? (t : Text) : Option Int :=
  let value? : Option Int :=
    if Text.startsWith t "-" then (natValue? (t.drop 1)).map fun n : Nat => -(n : Int)
    else (natValue? t).map Int.ofNat
  value?.filter fits

end MojoLint.Command
