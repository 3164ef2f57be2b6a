import MojoLint.Exclusion.Basic

/-!
# Exclusion of a single line

The same contract as the pass in `MojoLint.Exclusion.Basic`, decided for one line on its own: an
assigned literal reaches from the nearest line before that opens one to the line with its closing
delimiter, and a documentation block is open after an odd number of delimiters.
-/

namespace MojoLint.Exclusion

/-- The nearest line before line `i` that opens an assigned literal, and the column where it
does. -/
def nearestOpener (lines : List Text) : Nat → Option (Nat × Nat)
  | 0 => none
  | k + 1 =>
    match lines[k]?.bind Delimiter.assignedOpener with
    | some column => some (k, column)
    | none => nearestOpener lines k

/-- The line with the delimiter that closes the literal opened on line `k` at `column`: the line
itself, or else the first later one that holds a delimiter, or the number of lines when no line
does. -/
def closerOf (lines : List Text) (k column : Nat) : Nat :=
  if Delimiter.closesAfter ((lines[k]?).getD []) column then k
  else k + 1 + ((lines.drop (k + 1)).takeWhile fun line => !Delimiter.occursIn line).length

/-- Whether line `i` lies strictly inside a literal assigned to a variable. -/
def inLiteralAt (lines : List Text) (i : Nat) : Bool :=
  match nearestOpener lines i with
  | some (k, column) => i < closerOf lines k column
  | none => false

/-- The number of delimiters on the first `n` lines. -/
def delimitersBefore (lines : List Text) (n : Nat) : Nat :=
  (lines.take n).foldr (fun line behind => Delimiter.count line + behind) 0

/-- Whether a documentation block is open at the end of line `i`. -/
def inDocAt (lines : List Text) (i : Nat) : Bool := delimitersBefore lines (i + 1) % 2 == 1

/-- Whether line `i` is excluded. -/
def excludedAt (lines : List Text) (i : Nat) (checkDocs : Bool) : Bool :=
  i < lines.length && (inLiteralAt lines i || (!checkDocs && inDocAt lines i))

end MojoLint.Exclusion
