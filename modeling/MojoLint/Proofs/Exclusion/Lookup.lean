import MojoLint.Proofs.Exclusion.Pass

/-!
# The pass and the lookup agree

The pass goes forwards and carries two bits. The lookup starts at one line, searches backwards for
the nearest line that opens an assigned literal and forwards for the line that closes it, and counts
delimiters from the start of the text. The bit of the pass for assigned literals says at every line
whether the search reaches it: the nearest opener before the line has its closer there or later
(`literalOpen_after`). Which literals were open before that opener makes no difference, because a
line that opens an assigned literal forgets them.
-/

namespace MojoLint.Exclusion

/-- A literal is open before line `i`: the nearest opener before it is closed on the line or later,
or not at all. -/
def reaches (lines : List Text) (i : Nat) : Bool :=
  match nearestOpener lines i with
  | some (k, column) => i ≤ closerOf lines k column
  | none => false

theorem nearestOpener_lt {lines : List Text} {i k column : Nat}
    (h : nearestOpener lines i = some (k, column)) : k < i := by
  induction i with
  | zero => cases h
  | succ i ih =>
    unfold nearestOpener at h
    split at h
    · cases h
      exact Nat.lt_succ_self _
    · exact Nat.lt_succ_of_lt (ih h)

theorem lt_length_takeWhile_iff {p : Text → Bool} {ls : List Text} {n : Nat} {line : Text}
    (hn : n ≤ (ls.takeWhile p).length) (h : ls[n]? = some line) :
    n < (ls.takeWhile p).length ↔ p line = true := by
  induction ls generalizing n with
  | nil => cases h
  | cons l ls ih =>
    cases hp : p l with
    | false =>
      rw [List.takeWhile_cons, hp] at hn ⊢
      obtain rfl : n = 0 := Nat.le_zero.1 hn
      cases h
      simp [hp]
    | true =>
      rw [List.takeWhile_cons, hp] at hn ⊢
      cases n with
      | zero =>
        cases h
        simp [hp]
      | succ n =>
        simp only [if_true, List.length_cons, Nat.add_le_add_iff_right, Nat.add_lt_add_iff_right,
          List.getElem?_cons_succ] at hn h ⊢
        exact ih hn h

/-- A literal that reaches a line goes on behind it unless the line holds a delimiter. -/
theorem lt_closerOf_iff {lines : List Text} {i k column : Nat} {line : Text}
    (h : lines[i]? = some line) (hk : k < i) (hi : i ≤ closerOf lines k column) :
    i < closerOf lines k column ↔ Delimiter.occursIn line = false := by
  unfold closerOf at hi ⊢
  split at hi
  · omega
  · rename_i hclose
    rw [if_neg hclose]
    have hline : (lines.drop (k + 1))[i - (k + 1)]? = some line := by
      rw [List.getElem?_drop, Nat.add_sub_cancel' hk, h]
    have hmeet := lt_length_takeWhile_iff (p := fun l => !Delimiter.occursIn l) (by omega) hline
    rw [Bool.not_eq_true'] at hmeet
    rw [← hmeet]
    omega

/-- A line lies strictly inside an assigned literal when the literal reaches it and the line does
not close it. -/
theorem inLiteralAt_eq {lines : List Text} {i : Nat} {line : Text} (h : lines[i]? = some line) :
    inLiteralAt lines i = (reaches lines i && !Delimiter.occursIn line) := by
  unfold inLiteralAt reaches
  cases hfind : nearestOpener lines i with
  | none => rfl
  | some opener =>
    obtain ⟨k, column⟩ := opener
    simp only
    by_cases hi : i ≤ closerOf lines k column
    · have hmeet := lt_closerOf_iff h (nearestOpener_lt hfind) hi
      cases hocc : Delimiter.occursIn line <;> simp [hi, hmeet, hocc]
    · have hlt : ¬ i < closerOf lines k column := by omega
      simp [hi, hlt]

/-! ## The bit for assigned literals -/

theorem State.after_take_succ (s : State) {lines : List Text} {i : Nat} {line : Text}
    (h : lines[i]? = some line) :
    s.after (lines.take (i + 1)) = (s.after (lines.take i)).next line := by
  rw [State.after, List.take_add_one, h, Option.toList_some, List.foldl_append]
  rfl

theorem reaches_succ_of_opener {lines : List Text} {i column : Nat} {line : Text}
    (h : lines[i]? = some line) (hopen : Delimiter.assignedOpener line = some column) :
    reaches lines (i + 1) = !Delimiter.closesAfter line column := by
  have hnear : nearestOpener lines (i + 1) = some (i, column) := by
    rw [nearestOpener, h, Option.bind_some, hopen]
  simp only [reaches, hnear, closerOf, h, Option.getD_some]
  cases Delimiter.closesAfter line column with
  | true => simp
  | false =>
    simp only [Bool.false_eq_true, if_false, Bool.not_false, decide_eq_true_eq]
    omega

theorem reaches_succ_of_none {lines : List Text} {i : Nat} {line : Text}
    (h : lines[i]? = some line) (hopen : Delimiter.assignedOpener line = none) :
    reaches lines (i + 1) = inLiteralAt lines i := by
  have hnear : nearestOpener lines (i + 1) = nearestOpener lines i := by
    rw [nearestOpener, h, Option.bind_some, hopen]
  rw [reaches, hnear]
  rfl

/-- **The pass knows which literal the search would find**: its bit before line `i` says whether
the nearest opener before the line reaches it. -/
theorem literalOpen_after {lines : List Text} {i : Nat} (hi : i ≤ lines.length) :
    (State.start.after (lines.take i)).literalOpen = reaches lines i := by
  induction i with
  | zero => rfl
  | succ i ih =>
    have hline : lines[i]? = some lines[i] := List.getElem?_eq_getElem hi
    rw [State.after_take_succ _ hline, State.next, State.literalAfter, ih (Nat.le_of_succ_le hi)]
    cases hopen : Delimiter.assignedOpener lines[i] with
    | some column => exact (reaches_succ_of_opener hline hopen).symm
    | none => rw [reaches_succ_of_none hline hopen, inLiteralAt_eq hline]

theorem inLiteral_eq_inLiteralAt (checkDocs : Bool) {lines : List Text} {i : Nat}
    (hi : i < lines.length) : (ofLines checkDocs lines).inLiteral i = inLiteralAt lines i := by
  have hline : lines[i]? = some lines[i] := List.getElem?_eq_getElem hi
  unfold inLiteral ofLines
  rw [State.getElem?_run, hline, inLiteralAt_eq hline, ← literalOpen_after (Nat.le_of_lt hi)]
  rfl

/-! ## The two answers -/

/-- **One pass over the lines excludes exactly the lines that the lookup excludes**, also past the
last one, whether or not the code inside documentation is checked. -/
theorem excluded_eq_excludedAt (checkDocs : Bool) (lines : List Text) (i : Nat) :
    (ofLines checkDocs lines).excluded i = excludedAt lines i checkDocs := by
  by_cases hi : i < lines.length
  · rw [excluded_eq, inLiteral_eq_inLiteralAt checkDocs hi, inDoc_eq_inDocAt checkDocs hi,
      excludedAt]
    simp [hi]
  · simp [excluded, ofLines, excludedAt, hi]

/-- An opener inside an open literal, a literal closed where it opens, and one that is never
closed. -/
example :
    let lines : List Text :=
      ["x = \"\"\"", "y = \"\"\"a", "b", "z = \"\"\"c\"\"\"", "d", "w = \"\"\"e", "f"]
    (List.range 8).map ((ofLines true lines).excluded ·) =
      [false, false, true, false, false, false, true, false] := by
  decide +kernel

end MojoLint.Exclusion
