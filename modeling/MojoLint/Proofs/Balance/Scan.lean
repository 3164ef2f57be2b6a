import Mathlib.Algebra.GroupWithZero.Nat
import MojoLint.Balance
import MojoLint.Proofs.Token.Lexer

/-!
# The structure scan, line by line

`Balance.check` goes through a text in one recursion. Here the same scan is taken apart into steps:
`State.step` scans one line, `stateAt` is where the scan stands before a line, and a text passes the
check exactly when the steps lead from the start back to it (`check_eq_ok_iff`).

Whether the scan is inside a docstring before a line is `insideAt`. It changes with every delimiter
that the scan takes for the start or the end of a docstring, and with no other: `insideAt` is the
parity of `readBefore` (`insideAt_eq_odd`). Outside the docstrings the scan lexes, and `tokensAt`
are the tokens it reads on a line.
-/

namespace MojoLint.Balance

/-- Where the scan stands between two lines. -/
structure State where
  stack : Stack
  /-- The line that opened the docstring the scan is inside, if it is inside one. -/
  doc : Option Nat
deriving DecidableEq

/-- The part of a line that is code, when the scan enters the line inside a docstring or not. -/
def codePart? (inside : Bool) (line : Text) : Option Text :=
  if inside then afterDocstring? line else some line

namespace State

def start : State := ⟨[], none⟩

/-- Scans the line with number `i`. -/
def step (s : State) (i : Nat) (line : Text) : Except Fault State :=
  match codePart? s.doc.isSome line with
  | none => .ok s
  | some code =>
    match scanTokens i s.stack (Token.ofLine code) with
    | .ok (next, opened) => .ok ⟨next, if opened then some i else none⟩
    | .error fault => .error fault

/-- Scans the lines from number `i` on. -/
def run (s : State) (i : Nat) : List Text → Except Fault State
  | [] => .ok s
  | line :: rest => (s.step i line).bind fun next => next.run (i + 1) rest

/-- What the end of the text makes of the state. -/
def finish (s : State) : Except Fault Unit := scanLines 0 s.stack s.doc []

theorem finish_eq_ok_iff {s : State} : s.finish = .ok () ↔ s = start := by
  obtain ⟨stack, doc⟩ := s
  cases doc with
  | some opened => simp [finish, scanLines, start]
  | none => cases stack <;> simp [finish, scanLines, start]

theorem run_append (s : State) (i : Nat) (xs ys : List Text) :
    s.run i (xs ++ ys) = (s.run i xs).bind fun next => next.run (i + xs.length) ys := by
  induction xs generalizing s i with
  | nil => rfl
  | cons line xs ih =>
    cases h : s.step i line with
    | error fault => simp [run, h, Except.bind]
    | ok next =>
      have := ih next (i + 1)
      simp only [List.cons_append, run, h, Except.bind, List.length_cons] at this ⊢
      rw [this, Nat.add_assoc, Nat.add_comm 1]

end State

/-- The scan is its steps, one after the other. -/
theorem scanLines_eq_run (i : Nat) (s : State) (lines : List Text) :
    scanLines i s.stack s.doc lines = (s.run i lines).bind State.finish := by
  induction lines generalizing i s with
  | nil => simp [State.run, Except.bind, State.finish, scanLines]
  | cons line rest ih =>
    rw [scanLines, State.run, State.step, ← codePart?]
    cases codePart? s.doc.isSome line with
    | none => exact ih (i + 1) s
    | some code =>
      simp only
      cases scanTokens i s.stack (Token.ofLine code) with
      | error fault => rfl
      | ok pair => exact ih (i + 1) ⟨pair.1, if pair.2 then some i else none⟩

/-! ## The state before a line -/

/-- Where the scan stands before line `n`. -/
def stateAt (lines : List Text) (n : Nat) : Except Fault State := State.start.run 0 (lines.take n)

/-- Whether the scan is inside a docstring before line `n`. -/
def insideAt (lines : List Text) (n : Nat) : Bool :=
  match stateAt lines n with
  | .ok s => s.doc.isSome
  | .error _ => false

theorem insideAt_of_stateAt {lines : List Text} {n : Nat} {s : State}
    (h : stateAt lines n = .ok s) : insideAt lines n = s.doc.isSome := by
  rw [insideAt, h]

theorem stateAt_succ {lines : List Text} {n : Nat} {line : Text} (h : lines[n]? = some line) :
    stateAt lines (n + 1) = (stateAt lines n).bind fun s => s.step n line := by
  have hn : n < lines.length := (List.getElem?_eq_some_iff.1 h).1
  have hlen : (lines.take n).length = n := by
    rw [List.length_take]
    omega
  rw [stateAt, List.take_add_one, h, Option.toList_some, State.run_append, hlen, Nat.zero_add]
  unfold stateAt
  cases State.start.run 0 (lines.take n) with
  | error fault => rfl
  | ok s =>
    simp only [Except.bind, State.run]
    cases s.step n line <;> rfl

/-- Behind the last line the state stays as it is. -/
theorem stateAt_of_length_le {lines : List Text} {n : Nat} (h : lines.length ≤ n) :
    stateAt lines n = stateAt lines lines.length := by
  rw [stateAt, stateAt, List.take_of_length_le h, List.take_length]

/-- A text passes when its scan ends where it started. -/
theorem check_eq_ok_iff {t : Text} :
    check t = .ok () ↔ stateAt t.lines t.lines.length = .ok State.start := by
  unfold check stateAt
  rw [List.take_length]
  have := scanLines_eq_run 0 State.start t.lines
  simp only [State.start] at this ⊢
  rw [this]
  cases h : State.run ⟨[], none⟩ 0 t.lines with
  | error fault => simp [Except.bind]
  | ok s =>
    simp only [Except.bind, Except.ok.injEq]
    exact State.finish_eq_ok_iff

theorem isOk_check_iff {t : Text} : (check t).isOk = true ↔ check t = .ok () := by
  cases check t with
  | ok => exact ⟨fun _ => rfl, fun _ => rfl⟩
  | error fault => exact ⟨nofun, nofun⟩

instance (t : Text) : Decidable (check t = .ok ()) := decidable_of_iff _ isOk_check_iff

/-- When the scan gets to a line it got to every line before. -/
theorem exists_stateAt_of_le {lines : List Text} {m n : Nat} (hmn : m ≤ n) {s : State}
    (h : stateAt lines n = .ok s) : ∃ s', stateAt lines m = .ok s' := by
  have htake : lines.take n = lines.take m ++ (lines.take n).drop m := by
    have := List.take_append_drop m (lines.take n)
    rw [List.take_take, Nat.min_eq_left hmn] at this
    exact this.symm
  unfold stateAt at h ⊢
  rw [htake, State.run_append] at h
  cases hm : State.start.run 0 (lines.take m) with
  | ok s' => exact ⟨s', rfl⟩
  | error fault =>
    rw [hm] at h
    cases h

/-! ## Delimiters that the scan reads -/

/-- The number of delimiters with which a token opens and closes a docstring. -/
def delimitersOf (t : Token) : Nat :=
  if opensDocstring t then
    match t.kind with
    | .string .complete => 2
    | .string .unterminated => 1
    | _ => 0
  else 0

/-- The number of delimiters on a line that the scan takes for the start or the end of a
docstring. -/
def delimitersRead (inside : Bool) (line : Text) : Nat :=
  match codePart? inside line with
  | none => 0
  | some code => inside.toNat + ((Token.ofLine code).map delimitersOf).sum

/-- The number of delimiters that the scan reads on the first `n` lines. -/
def readBefore (lines : List Text) : Nat → Nat
  | 0 => 0
  | n + 1 => readBefore lines n + delimitersRead (insideAt lines n) ((lines[n]?).getD [])

/-- Tokens leave a docstring open exactly when they hold an odd number of the delimiters that the
scan reads: the complete ones hold two, and an open one can only be the last token. -/
theorem scanTokens_opened {line : Nat} {stack next : Stack} {opened : Bool} {ts : List Token}
    (hlast : ts.Pairwise fun a _ => ¬ a.endsLine)
    (h : scanTokens line stack ts = .ok (next, opened)) :
    opened = ((ts.map delimitersOf).sum % 2 == 1) := by
  induction ts generalizing stack with
  | nil =>
    cases h
    rfl
  | cons t ts ih =>
    obtain ⟨hend, hrest⟩ := List.pairwise_cons.1 hlast
    rw [List.map_cons, List.sum_cons]
    unfold scanTokens at h
    split at h
    · rename_i hopen
      have hnil : ts = [] := by
        cases ts with
        | nil => rfl
        | cons u us => exact absurd (.inr hopen) (hend u List.mem_cons_self)
      subst hnil
      split at h
      · rename_i hdoc
        cases h
        simp [delimitersOf, hdoc, hopen]
      · cases h
    · rename_i hclosed
      have heven : delimitersOf t % 2 = 0 := by
        unfold delimitersOf
        split
        · split
          · rfl
          · exact absurd ‹_› hclosed
          · rfl
        · rfl
      rw [Nat.add_mod, heven, Nat.zero_add, Nat.mod_mod]
      split at h
      · exact ih hrest h
      · split at h
        · exact ih hrest h
        · cases h

/-- One line changes sides exactly when the scan reads an odd number of delimiters on it. -/
theorem State.doc_step {s next : State} {i : Nat} {line : Text} (h : s.step i line = .ok next) :
    next.doc.isSome = (s.doc.isSome != (delimitersRead s.doc.isSome line % 2 == 1)) := by
  unfold State.step at h
  unfold delimitersRead
  cases hc : codePart? s.doc.isSome line with
  | none =>
    rw [hc] at h
    cases h
    simp
  | some code =>
    rw [hc] at h
    simp only at h ⊢
    split at h
    · rename_i stack opened htok
      cases h
      have hodd := scanTokens_opened (Token.ofLine_pairwise code) htok
      have hside : (if opened then some i else none : Option Nat).isSome = opened := by
        cases opened <;> rfl
      rw [hside, hodd, Delimiter.odd_add]
      cases s.doc.isSome <;> simp
    · cases h

/-- **The side the scan is on** is the parity of the delimiters it has read. -/
theorem insideAt_eq_odd {lines : List Text} {n : Nat} (hn : n ≤ lines.length) {s : State}
    (h : stateAt lines n = .ok s) : insideAt lines n = (readBefore lines n % 2 == 1) := by
  induction n generalizing s with
  | zero =>
    rw [insideAt_of_stateAt h]
    cases h
    rfl
  | succ n ih =>
    have hget : lines[n]? = some lines[n] := List.getElem?_eq_getElem hn
    obtain ⟨prev, hprev⟩ := exists_stateAt_of_le (Nat.le_succ n) h
    have hin := ih (Nat.le_of_succ_le hn) hprev
    rw [stateAt_succ hget, hprev] at h
    have hside := insideAt_of_stateAt hprev
    rw [insideAt_of_stateAt (s := s) (by rw [stateAt_succ hget, hprev]; exact h),
      State.doc_step h, ← hside, readBefore, hget, Option.getD_some, Delimiter.odd_add, ← hin]

/-! ## Tokens that the scan reads -/

/-- The tokens that the scan reads on line `k`: what lies inside a docstring makes none. -/
def tokensAt (lines : List Text) (k : Nat) : List Token :=
  match codePart? (insideAt lines k) ((lines[k]?).getD []) with
  | none => []
  | some code => Token.ofLine code

/-- The lines as the scan reads them. -/
def scanned (lines : List Text) : List (List Token) :=
  (List.range lines.length).map (tokensAt lines)

theorem getElem?_scanned {lines : List Text} {k : Nat} (h : k < lines.length) :
    (scanned lines)[k]? = some (tokensAt lines k) := by
  rw [scanned, List.getElem?_map, List.getElem?_range h, Option.map_some]

theorem tokensAt_of_code {lines : List Text} {k : Nat} (h : insideAt lines k = false) :
    tokensAt lines k = Token.ofLine ((lines[k]?).getD []) := by
  rw [tokensAt, h]
  rfl

theorem count_cons_eq_zero {a : UInt8} {rest : Text} (h : Delimiter.count (a :: rest) = 0) :
    Delimiter.triple.isPrefixOf (a :: rest) = false ∧ Delimiter.count rest = 0 := by
  match rest with
  | [] => exact ⟨by simp [Delimiter.triple, List.isPrefixOf], rfl⟩
  | [b] => exact ⟨by simp [Delimiter.triple, List.isPrefixOf], rfl⟩
  | b :: c :: tail =>
    unfold Delimiter.count at h
    split at h
    · cases h
    · rename_i hne
      refine ⟨Bool.eq_false_iff.2 fun hstart => hne ?_, h⟩
      simp only [Delimiter.triple, List.isPrefixOf, Bool.and_true, Bool.and_eq_true,
        beq_iff_eq] at hstart
      simp only [Bool.and_eq_true, decide_eq_true_eq]
      exact ⟨⟨hstart.1.symm, hstart.2.1.symm⟩, hstart.2.2.symm⟩

theorem find_triple_of_count {line : Text} (h : Delimiter.count line = 0) :
    Text.find Delimiter.triple line = none := by
  induction line with
  | nil => rfl
  | cons a rest ih =>
    obtain ⟨hhead, htail⟩ := count_cons_eq_zero h
    rw [Text.find, hhead, ih htail]
    rfl

/-- A line inside a docstring that holds no delimiter makes no token. -/
theorem tokensAt_of_inside {lines : List Text} {k : Nat} (h : insideAt lines k = true)
    (hcount : Delimiter.count ((lines[k]?).getD []) = 0) : tokensAt lines k = [] := by
  have hpart : codePart? true ((lines[k]?).getD []) = none := by
    rw [codePart?, if_pos rfl, afterDocstring?, find_triple_of_count hcount]
    rfl
  rw [tokensAt, h, hpart]

end MojoLint.Balance
