import MojoLint.Text.Delimiter

/-!
# Excluded lines

A checker of code must not look into prose. Two kinds of triple-quoted literals hold prose:

* a literal assigned to a variable, whose inner lines are always excluded;
* a documentation block, whose lines are excluded unless the code inside documentation is to be
  checked as well.

Both are followed by their delimiters alone, in one pass over the lines that carries two bits: is
an assigned literal open, and was the number of delimiters so far odd. `Exclusion.excludedAt`
answers the same question for a single line by looking around it.
-/

namespace MojoLint

namespace Exclusion

/-- What one pass knows between two lines. -/
structure State where
  /-- A literal assigned to a variable is open. -/
  literalOpen : Bool
  /-- The number of delimiters met so far is odd. -/
  docOpen : Bool
deriving DecidableEq

/-- What one pass finds out about a line. -/
structure Flags where
  /-- The line lies strictly inside an assigned literal. -/
  inLiteral : Bool
  /-- A documentation block is open at the end of the line. -/
  inDoc : Bool
  /-- How many bytes of the line finish an assigned literal, 0 when it finishes none. -/
  literalTail : UInt32
  /-- How many bytes of the line finish a documentation block, 0 when it finishes none. -/
  docTail : UInt32
deriving DecidableEq

namespace State

/-- Nothing is open before the first line. -/
def start : State := ⟨false, false⟩

/-- Whether an assigned literal is open after the line: the literal that the line opens, or else
the one open before it unless the line holds the delimiter that closes it. -/
def literalAfter (s : State) (line : Text) : Bool :=
  match Delimiter.assignedOpener line with
  | some column => !Delimiter.closesAfter line column
  | none => s.literalOpen && !Delimiter.occursIn line

/-- Whether the number of delimiters is odd after the line. -/
def docAfter (s : State) (line : Text) : Bool :=
  s.docOpen != (Delimiter.count line % 2 == 1)

/-- The state after a line. -/
def next (s : State) (line : Text) : State := ⟨s.literalAfter line, s.docAfter line⟩

/-- The flags of a line met in state `s`. -/
def flags (s : State) (line : Text) : Flags :=
  let closed : UInt32 := ((Delimiter.firstEnd line).getD 0).toUInt32
  { inLiteral := s.literalOpen && !Delimiter.occursIn line
    inDoc := s.docAfter line
    literalTail := if s.literalOpen then closed else 0
    docTail := if s.docOpen then closed else 0 }

/-- The flags of each of the lines that follow state `s`. -/
def run (s : State) : List Text → List Flags
  | [] => []
  | line :: rest => s.flags line :: (s.next line).run rest

@[simp] theorem length_run (s : State) (lines : List Text) :
    (s.run lines).length = lines.length := by
  induction lines generalizing s with
  | nil => rfl
  | cons line rest ih => simp [run, ih]

end State

end Exclusion

/-- The excluded lines of a text. -/
structure Exclusion where
  /-- Code inside documentation blocks is checked as well. -/
  checkDocs : Bool
  flags : List Exclusion.Flags

namespace Exclusion

/-- The exclusion computed by one pass over the lines. -/
def ofLines (checkDocs : Bool) (lines : List Text) : Exclusion :=
  ⟨checkDocs, State.start.run lines⟩

/-- Whether the line lies strictly inside a literal assigned to a variable. -/
def inLiteral (e : Exclusion) (i : Nat) : Bool := e.flags[i]?.any Flags.inLiteral

/-- Whether a documentation block is open at the end of the line. -/
def inDoc (e : Exclusion) (i : Nat) : Bool := e.flags[i]?.any Flags.inDoc

/-- Whether flags exclude their line. -/
def excludes (checkDocs : Bool) (f : Flags) : Bool := f.inLiteral || (!checkDocs && f.inDoc)

/-- The bytes at the start of a line that finish an excluded literal. -/
def tailOf (checkDocs : Bool) (f : Flags) : UInt32 :=
  if f.literalTail ≠ 0 then f.literalTail else if checkDocs then 0 else f.docTail

/-- Whether the line is excluded. A line past the end is not. -/
def excluded (e : Exclusion) (i : Nat) : Bool := e.flags[i]?.any (excludes e.checkDocs)

/-- The number of bytes at the start of the line that finish an excluded literal: up to and
including the closing delimiter, and 0 when the line closes none. -/
def tail (e : Exclusion) (i : Nat) : UInt32 := (e.flags[i]?.map (tailOf e.checkDocs)).getD 0

end Exclusion

end MojoLint
