import MojoLint.Proofs.Balance.Outline

/-!
# A text as the structure scan lexes it

The scan reads each line as the rest of a docstring that a line above opened, and the tokens of the
code behind it (`Reading`). Where one line is put in the place of another that leads the scan to the
same place, every other line is read as before (`lexed_set`).
-/

namespace MojoLint.Balance

/-- The part of a line that belongs to a docstring, when the scan enters the line inside one. -/
def prosePart (inside : Bool) (line : Text) : Text :=
  if inside then
    match Text.find Delimiter.triple line with
    | some close => line.take (close + 3)
    | none => line
  else []

/-- A line as the scan reads it. -/
structure Reading where
  prose : Text
  tokens : List Token
deriving DecidableEq

/-- How the scan reads a line that it enters inside a docstring or not. -/
def Reading.ofLine (inside : Bool) (line : Text) : Reading :=
  ⟨prosePart inside line, ((codePart? inside line).map Token.ofLine).getD []⟩

/-- The lines as the scan reads them. -/
def lexed (lines : List Text) : List Reading :=
  (List.range lines.length).map fun k =>
    Reading.ofLine (insideAt lines k) ((lines[k]?).getD [])

@[simp] theorem length_lexed (lines : List Text) : (lexed lines).length = lines.length := by
  rw [lexed, List.length_map, List.length_range]

theorem getElem?_lexed {lines : List Text} {k : Nat} {line : Text} (h : lines[k]? = some line) :
    (lexed lines)[k]? = some (Reading.ofLine (insideAt lines k) line) := by
  have hk : k < lines.length := (List.getElem?_eq_some_iff.1 h).1
  rw [lexed, List.getElem?_map, List.getElem?_range hk, Option.map_some, h, Option.getD_some]

/-! ## Another line -/

theorem foldlM_set {α β : Type} {f : β → α → Option β} {xs : List α} {i : Nat} {y : α}
    (h : ∀ x, xs[i]? = some x → ∀ s, f s y = f s x) (s : β) :
    (xs.set i y).foldlM f s = xs.foldlM f s := by
  induction xs generalizing i s with
  | nil => rfl
  | cons x xs ih =>
    cases i with
    | zero => rw [List.set_cons_zero, List.foldlM_cons, List.foldlM_cons, h x rfl s]
    | succ i =>
      rw [List.set_cons_succ, List.foldlM_cons, List.foldlM_cons]
      exact congrArg _ (funext fun next => ih (fun z hz => h z hz) next)

/-- Whether the scan is inside a docstring is seen in its outline. -/
theorem insideAt_eq_outline (lines : List Text) (n : Nat) :
    insideAt lines n =
      ((lines.take n).foldlM Outline.line ⟨[], false⟩).any Outline.inside := by
  have hrun := outline_run State.start 0 (lines.take n)
  rw [← show State.start.outline = ⟨[], false⟩ from rfl, ← hrun]
  unfold insideAt stateAt
  cases State.start.run 0 (lines.take n) <;> rfl

variable {lines : List Text} {i : Nat} {line m : Text}

theorem insideAt_set (hline : lines[i]? = some line) (h : ∀ s, Outline.line s m = s.line line)
    (n : Nat) : insideAt (lines.set i m) n = insideAt lines n := by
  rw [insideAt_eq_outline, insideAt_eq_outline, List.take_set, foldlM_set]
  intro x hx
  have hget : lines[i]? = some x := by
    rw [List.getElem?_take] at hx
    split at hx
    · exact hx
    · cases hx
  rw [hline] at hget
  cases hget
  exact h

/-- **A line is read on its own**, when it leads the scan to where the line before it did. -/
theorem lexed_set (hline : lines[i]? = some line) (h : ∀ s, Outline.line s m = s.line line) :
    lexed (lines.set i m) = (lexed lines).set i (Reading.ofLine (insideAt lines i) m) := by
  apply List.ext_getElem?
  intro k
  by_cases hk : k < lines.length
  · have hget : lines[k]? = some lines[k] := List.getElem?_eq_getElem hk
    by_cases hik : i = k
    · subst hik
      have hset : (lines.set i m)[i]? = some m := List.getElem?_set_self hk
      rw [getElem?_lexed hset, insideAt_set hline h,
        List.getElem?_set_self (by rwa [length_lexed])]
    · have hset : (lines.set i m)[k]? = some lines[k] := by rw [List.getElem?_set_ne hik, hget]
      rw [getElem?_lexed hset, insideAt_set hline h, List.getElem?_set_ne hik, getElem?_lexed hget]
  · rw [List.getElem?_eq_none (by simpa using hk), List.getElem?_eq_none (by simpa using hk)]

/-- The readings are those of before but for one exactly when that one is as it should be. -/
theorem lexed_set_eq_modify_iff (hline : lines[i]? = some line)
    (h : ∀ s, Outline.line s m = s.line line) (f : Reading → Reading) :
    lexed (lines.set i m) = (lexed lines).modify i f ↔
      Reading.ofLine (insideAt lines i) m = f (Reading.ofLine (insideAt lines i) line) := by
  have hi : i < (lexed lines).length := by
    rw [length_lexed]
    exact (List.getElem?_eq_some_iff.1 hline).1
  rw [lexed_set hline h]
  constructor
  · intro heq
    have hread := congrArg (fun readings => readings[i]?) heq
    simp only [List.getElem?_modify, List.getElem?_set_self hi, getElem?_lexed hline] at hread
    simpa using hread
  · intro heq
    apply List.ext_getElem?
    intro k
    by_cases hik : i = k
    · subst hik
      rw [List.getElem?_set_self hi, List.getElem?_modify, getElem?_lexed hline, heq]
      simp
    · rw [List.getElem?_set_ne hik, List.getElem?_modify]
      simp [hik]

end MojoLint.Balance
