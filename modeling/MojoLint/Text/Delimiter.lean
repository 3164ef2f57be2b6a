import MojoLint.Text.Lines

/-!
# Triple-quote delimiters

What can be read off a single line about triple-quoted literals by looking for the delimiter
alone, without lexing the line: how many delimiters it holds and whether it assigns a literal to
a variable.
-/

namespace MojoLint.Delimiter

/-- The delimiter of documentation blocks and of long string literals: three double quotes. -/
def triple : Text := [Byte.quote, Byte.quote, Byte.quote]

/-- The number of delimiters on a line, counted from the left without overlap. -/
def count : Text → Nat
  | a :: b :: c :: rest =>
    if a = Byte.quote && b = Byte.quote && c = Byte.quote then count rest + 1
    else count (b :: c :: rest)
  | _ => 0

/-- Of two numbers of delimiters the sum is odd when exactly one of them is. -/
theorem odd_add (m n : Nat) : ((m + n) % 2 == 1) = ((m % 2 == 1) != (n % 2 == 1)) := by
  rcases Nat.mod_two_eq_zero_or_one m with hm | hm <;>
    rcases Nat.mod_two_eq_zero_or_one n with hn | hn <;> simp [Nat.add_mod, hm, hn]

/-- Whether a line holds a delimiter. -/
def occursIn (line : Text) : Bool := Text.contains line triple

/-- The column just after the first delimiter of a line. -/
def firstEnd (line : Text) : Option Nat := (Text.find triple line).map (· + 3)

/-- Whether the text holds an equals sign that is no part of a comparison: none follows it, and
before it stands neither another one nor `!`, `<` or `>`. The byte before the text is `prev`. -/
def assigns (prev : UInt8) : Text → Bool
  | [] => false
  | b :: rest =>
    (b == Byte.equals && rest.head? != some Byte.equals &&
      !(prev == Byte.equals || prev == Byte.bang || prev == Byte.less || prev == Byte.greater)) ||
    assigns b rest

/-- The column of the delimiter that opens a literal assigned to a variable: the first one of the
line, provided an assignment sign stands before it. -/
def assignedOpener (line : Text) : Option Nat :=
  (Text.find triple line).filter fun column => assigns Byte.space (line.take column)

/-- Whether the literal that opens at `column` is closed again on the same line. -/
def closesAfter (line : Text) (column : Nat) : Bool := occursIn (line.drop (column + 3))

end MojoLint.Delimiter
