import Mathlib.Algebra.GroupWithZero.Nat
import MojoLint.Exclusion.Lookup

/-!
# The exclusion pass, line by line

`State.after` is what the pass knows after some lines, and the flags of a line are those that this
knowledge gives it (`getElem?_run`). The documentation flag is then the parity of the delimiters up
to the end of the line.
-/

namespace MojoLint.Exclusion

/-- What the pass knows after the lines. -/
def State.after (s : State) (lines : List Text) : State := lines.foldl State.next s

theorem State.getElem?_run (s : State) (lines : List Text) (i : Nat) :
    (s.run lines)[i]? = (lines[i]?).map fun line => (s.after (lines.take i)).flags line := by
  induction lines generalizing s i with
  | nil => rfl
  | cons line rest ih =>
    cases i with
    | zero => rfl
    | succ i => exact ih (s.next line) i

theorem delimitersBefore_eq_sum (lines : List Text) (n : Nat) :
    delimitersBefore lines n = ((lines.take n).map Delimiter.count).sum := by
  rw [List.sum_eq_foldr, List.foldr_map]
  rfl

/-- The pass knows the parity of the delimiters it has met. -/
theorem State.docOpen_after (s : State) (lines : List Text) :
    (s.after lines).docOpen =
      (s.docOpen != ((lines.map Delimiter.count).sum % 2 == 1)) := by
  induction lines generalizing s with
  | nil => simp [State.after]
  | cons line rest ih =>
    have hnext : (s.after (line :: rest)).docOpen = ((s.next line).after rest).docOpen := rfl
    rw [hnext, ih, List.map_cons, List.sum_cons, State.next, State.docAfter, Delimiter.odd_add,
      Bool.bne_assoc]

theorem delimitersBefore_succ {lines : List Text} {i : Nat} {line : Text}
    (h : lines[i]? = some line) :
    delimitersBefore lines (i + 1) = delimitersBefore lines i + Delimiter.count line := by
  simp [delimitersBefore_eq_sum, List.take_add_one, h]

/-- A documentation block is open at the end of a line after an odd number of delimiters. -/
theorem inDoc_eq_inDocAt (checkDocs : Bool) {lines : List Text} {i : Nat} (hi : i < lines.length) :
    (ofLines checkDocs lines).inDoc i = inDocAt lines i := by
  have hget : lines[i]? = some lines[i] := List.getElem?_eq_getElem hi
  unfold inDoc ofLines inDocAt
  rw [State.getElem?_run, hget, delimitersBefore_succ hget]
  simp only [Option.map_some, Option.any_some, State.flags, State.docAfter]
  rw [State.docOpen_after]
  simp only [State.start, delimitersBefore_eq_sum, Bool.false_bne, Delimiter.odd_add]

/-- The line is excluded as part of a literal, or as documentation. -/
theorem excluded_eq (checkDocs : Bool) (lines : List Text) (i : Nat) :
    (ofLines checkDocs lines).excluded i =
      ((ofLines checkDocs lines).inLiteral i ||
        (!checkDocs && (ofLines checkDocs lines).inDoc i)) := by
  unfold excluded inLiteral inDoc
  simp only [ofLines]
  cases (State.start.run lines)[i]? <;> simp [excludes]

end MojoLint.Exclusion
