import MojoLint.Proofs.Exclusion.Lookup
import MojoLint.Proofs.Source.Rows
import MojoLint.Proofs.Text.Delimiter
import MojoLint.Proofs.Token.Lossless

/-!
# Lines that finish an excluded literal

A line that holds a delimiter finishes a literal when the pass enters it with one open: the assigned
literal of the nearest opener before the line (`Closes`, `reaches_iff`), or a documentation block.
The bytes up to and including its first delimiter are then the tail of that literal
(`tail_eq`), and a source file reads them as one token of the literal, and the rest of the line as
code (`tail_finishes_literal`).
-/

namespace MojoLint

namespace Token

/-- The token further right. -/
def shift (n : UInt32) (t : Token) : Token := { t with column := t.column + n }

/-- A scan that starts further right finds the same tokens there. -/
theorem scan_add (pos n : Nat) (line : Text) :
    scan (pos + n) line = (scan pos line).map (shift n.toUInt32) := by
  fun_induction scan pos line with
  | case1 => rw [scan_nil, List.map_nil]
  | case2 pos b rest hgap ih => rw [scan_gap _ rest hgap, Nat.add_right_comm, ih]
  | case3 pos b rest hgap kind more hlex ih =>
    have hpos : pos + n + more + 1 = pos + more + 1 + n := by omega
    have hcolumn : (pos + n).toUInt32 = pos.toUInt32 + n.toUInt32 := UInt32.ofNat_add pos n
    rw [scan_lexeme _ rest hgap, hlex, hpos, ih, List.map_cons, shift, hcolumn]

/-- The tokens of a line whose first bytes finish a literal: what is left of the literal without its
indentation, and the tokens of the code behind it. -/
theorem exists_tail_of_ofClosingLine {line : Text} {closed : Nat} (hpos : 0 < closed)
    (hle : closed ≤ line.length) (hsize : line.length < UInt32.size) :
    ∃ head, head.kind = .string .continued ∧ head.stop = closed ∧
      head.text = (line.take closed).dropWhile Byte.isIndent ∧
      ofClosingLine line closed =
        head :: (ofLine (line.drop closed)).map (shift closed.toUInt32) := by
  refine ⟨tailOf line closed, rfl, ?_, Text.drop_length_takeWhile _ _, ?_⟩
  · have hindent := (List.takeWhile_prefix (l := line.take closed) Byte.isIndent).length_le
    rw [List.length_take_of_le hle] at hindent
    rw [stop, tailOf, Number.toNat_word (by omega), List.length_drop, List.length_take_of_le hle]
    exact Nat.add_sub_cancel' hindent
  · rw [ofClosingLine_of_le hpos hle, ofLine, ← scan_add, Nat.zero_add]

end Token

namespace Exclusion

open Delimiter (assignedOpener closesAfter occursIn triple)

/-! ## The literal that a line closes -/

/-- Line `k` assigns a literal that it opens at `column`, and the first delimiter behind that one is
on line `i`. No other line opens an assigned literal between the two. -/
structure Closes (lines : List Text) (k column i : Nat) : Prop where
  lt : k < i
  opener : ∃ line, lines[k]? = some line ∧ assignedOpener line = some column ∧
    closesAfter line column = false
  nearest : ∀ (j : Nat) (line : Text), k < j → j < i → lines[j]? = some line →
    assignedOpener line = none
  first : ∀ (j : Nat) (line : Text), k < j → j < i → lines[j]? = some line →
    occursIn line = false

/-- **A literal reaches a line** when nothing closes it before. -/
theorem reaches_iff {lines : List Text} {i : Nat} (hi : i ≤ lines.length) :
    reaches lines i = true ↔ ∃ k column, Closes lines k column i := by
  induction i with
  | zero => exact ⟨nofun, fun ⟨_, _, h⟩ => absurd h.lt (Nat.not_lt_zero _)⟩
  | succ i ih =>
    have hline : lines[i]? = some lines[i] := List.getElem?_eq_getElem hi
    cases hopen : assignedOpener lines[i] with
    | some column =>
      rw [reaches_succ_of_opener hline hopen, Bool.not_eq_true']
      constructor
      · intro hclose
        exact ⟨i, column, Nat.lt_succ_self i, ⟨_, hline, hopen, hclose⟩,
          fun j _ hj hj' => by omega, fun j _ hj hj' => by omega⟩
      · rintro ⟨k, c, hlt, ⟨line, hk, hopener, hclose⟩, hnearest, -⟩
        rcases Nat.lt_or_eq_of_le (Nat.le_of_lt_succ hlt) with hlt | rfl
        · rw [hnearest i _ hlt (Nat.lt_succ_self i) hline] at hopen
          cases hopen
        · rw [hline] at hk
          cases hk
          rw [hopen] at hopener
          cases hopener
          exact hclose
    | none =>
      rw [reaches_succ_of_none hline hopen, inLiteralAt_eq hline, Bool.and_eq_true,
        Bool.not_eq_true', ih (Nat.le_of_succ_le hi)]
      constructor
      · rintro ⟨⟨k, column, hlt, hopener, hnearest, hfirst⟩, hocc⟩
        -- line `i` is one more between the two
        have hbetween : ∀ {p : Text → Prop}, p lines[i] →
            (∀ j line, k < j → j < i → lines[j]? = some line → p line) →
            ∀ j line, k < j → j < i + 1 → lines[j]? = some line → p line := by
          intro p hp hbefore j line hj hj' hget
          rcases Nat.lt_or_eq_of_le (Nat.le_of_lt_succ hj') with hj' | rfl
          · exact hbefore j line hj hj' hget
          · rw [hline] at hget
            cases hget
            exact hp
        exact ⟨k, column, Nat.lt_succ_of_lt hlt, hopener,
          hbetween (p := fun l => assignedOpener l = none) hopen hnearest,
          hbetween (p := fun l => occursIn l = false) hocc hfirst⟩
      · rintro ⟨k, column, hlt, hopener, hnearest, hfirst⟩
        have hne : k ≠ i := by
          rintro rfl
          obtain ⟨line, hk, hopener, -⟩ := hopener
          rw [hline] at hk
          cases hk
          rw [hopen] at hopener
          cases hopener
        have hk : k < i := by omega
        exact ⟨⟨k, column, hk, hopener,
          fun j line hj hj' => hnearest j line hj (Nat.lt_succ_of_lt hj'),
          fun j line hj hj' => hfirst j line hj (Nat.lt_succ_of_lt hj')⟩,
          hfirst i _ hk (Nat.lt_succ_self i) hline⟩

/-! ## The tail -/

/-- A literal whose prose is excluded is open before line `i`. -/
def IsOpenAt (checkDocs : Bool) (lines : List Text) (i : Nat) : Prop :=
  (∃ k column, Closes lines k column i) ∨
    checkDocs = false ∧ delimitersBefore lines i % 2 = 1

section

variable {checkDocs : Bool} {lines : List Text} {i : Nat} {line : Text}

/-- What the pass records at a line: where its first delimiter ends, when the pass enters the line
with an excluded literal open. -/
theorem tail_eq (h : lines[i]? = some line) :
    (ofLines checkDocs lines).tail i =
      if reaches lines i || (!checkDocs && delimitersBefore lines i % 2 == 1) then
        ((Delimiter.firstEnd line).getD 0).toUInt32
      else 0 := by
  have hi := Nat.le_of_lt (List.getElem?_eq_some_iff.1 h).1
  have hliteral := literalOpen_after hi
  have hdoc := State.docOpen_after State.start (lines.take i)
  rw [← delimitersBefore_eq_sum, show State.start.docOpen = false from rfl, Bool.false_bne] at hdoc
  simp only [tail, ofLines, State.getElem?_run, h, Option.map_some, Option.getD_some, tailOf,
    State.flags, hliteral, hdoc]
  generalize ((Delimiter.firstEnd line).getD 0).toUInt32 = stop
  by_cases hzero : stop = 0
  · simp [hzero]
  · cases reaches lines i <;> cases checkDocs <;> simp [hzero]

theorem isOpenAt_iff (hi : i ≤ lines.length) :
    IsOpenAt checkDocs lines i ↔
      (reaches lines i || (!checkDocs && delimitersBefore lines i % 2 == 1)) = true := by
  rw [IsOpenAt, ← reaches_iff hi, Bool.or_eq_true, Bool.and_eq_true, Bool.not_eq_true',
    beq_iff_eq]

variable (h : lines[i]? = some line)

include h

/-- A tail ends with the first delimiter of its line. -/
theorem tail_of_find {column : Nat} (hsize : line.length < UInt32.size)
    (hfind : Text.find triple line = some column) (hopen : IsOpenAt checkDocs lines i) :
    ((ofLines checkDocs lines).tail i).toNat = column + 3 ∧ column + 3 ≤ line.length := by
  have hi := Nat.le_of_lt (List.getElem?_eq_some_iff.1 h).1
  have hle := Delimiter.find_add_le hfind
  rw [tail_eq h, if_pos ((isOpenAt_iff hi).1 hopen), Delimiter.firstEnd, hfind, Option.map_some,
    Option.getD_some, Number.toNat_word (by omega)]
  exact ⟨rfl, hle⟩

theorem exists_find_of_tail_ne_zero (hne : (ofLines checkDocs lines).tail i ≠ 0) :
    IsOpenAt checkDocs lines i ∧ ∃ column, Text.find triple line = some column := by
  have hi := Nat.le_of_lt (List.getElem?_eq_some_iff.1 h).1
  rw [tail_eq h] at hne
  split at hne
  · rename_i hopen
    refine ⟨(isOpenAt_iff hi).2 hopen, ?_⟩
    cases hfind : Text.find triple line with
    | some column => exact ⟨column, rfl⟩
    | none =>
      rw [Delimiter.firstEnd, hfind] at hne
      exact absurd rfl hne
  · exact absurd rfl hne

/-- A line has a tail when it holds a delimiter and a literal is open before it. -/
theorem tail_ne_zero_iff (hsize : line.length < UInt32.size) :
    (ofLines checkDocs lines).tail i ≠ 0 ↔
      occursIn line = true ∧ IsOpenAt checkDocs lines i := by
  rw [occursIn, Text.contains, Option.isSome_iff_exists]
  constructor
  · intro hne
    exact (exists_find_of_tail_ne_zero h hne).symm
  · rintro ⟨⟨column, hfind⟩, hopen⟩ hzero
    have htail := (tail_of_find h hsize hfind hopen).1
    rw [hzero] at htail
    cases htail

end

/-- The row of a line with a tail: one token of the literal, and those of the code behind it. -/
theorem exists_row_of_tail {path text : Text} {checkDocs : Bool} {i stop : Nat} {line : Text}
    (h : text.lines[i]? = some line) (hsize : line.length < UInt32.size)
    (hstop : ((ofLines checkDocs text.lines).tail i).toNat = stop) (hpos : 0 < stop)
    (hle : stop ≤ line.length) :
    ∃ row head, (Source.ofText path text checkDocs).rows[i]? = some row ∧
      head.kind = .string .continued ∧ head.stop = stop ∧
      head.text = (line.take stop).dropWhile Byte.isIndent ∧
      row.tokens = head :: (Token.ofLine (line.drop stop)).map
        (Token.shift ((ofLines checkDocs text.lines).tail i)) := by
  obtain ⟨l, hl, rfl⟩ : ∃ l, (Line.split text)[i]? = some l ∧ l.text = line := by
    rwa [Text.lines, List.getElem?_map, Option.map_eq_some_iff] at h
  have hrow := @Source.getElem?_rows_ofText path text checkDocs i l hl
  have hclosed : tailOf checkDocs ((State.start.after (text.lines.take i)).flags l.text) =
      (ofLines checkDocs text.lines).tail i := by
    simp only [tail, ofLines, State.getElem?_run, h, Option.map_some, Option.getD_some]
  have hword : stop.toUInt32 = (ofLines checkDocs text.lines).tail i := by
    rw [← hstop]
    exact UInt32.ofNat_toNat
  obtain ⟨head, hkind, hend, htext, htokens⟩ := Token.exists_tail_of_ofClosingLine hpos hle hsize
  refine ⟨_, head, hrow, hkind, hend, htext, ?_⟩
  simp only [Source.rowOf, hclosed]
  rw [hstop, htokens, hword]

/-- **The tail of a literal.** A line has one exactly when it holds a delimiter and an excluded
literal is open before it. The tail ends with the first delimiter of the line, and in a source file
it is one token, in front of the tokens of what follows. -/
theorem tail_finishes_literal (checkDocs : Bool) {lines : List Text}
    (hsize : ∀ line ∈ lines, line.length < UInt32.size) (i : Nat) :
    ((ofLines checkDocs lines).tail i ≠ 0 ↔
      ∃ line, lines[i]? = some line ∧ occursIn line = true ∧ IsOpenAt checkDocs lines i) ∧
    ((ofLines checkDocs lines).tail i ≠ 0 →
      ∃ line column, lines[i]? = some line ∧ Text.find triple line = some column ∧
        ((ofLines checkDocs lines).tail i).toNat = column + 3 ∧ column + 3 ≤ line.length ∧
        ∀ path text : Text, text.lines = lines →
          ∃ row head, (Source.ofText path text checkDocs).rows[i]? = some row ∧
            head.kind = .string .continued ∧ head.stop = column + 3 ∧
            head.text = (line.take (column + 3)).dropWhile Byte.isIndent ∧
            row.tokens = head :: (Token.ofLine (line.drop (column + 3))).map
              (Token.shift ((ofLines checkDocs lines).tail i))) := by
  cases hline : lines[i]? with
  | none =>
    have hzero : (ofLines checkDocs lines).tail i = 0 := by
      simp [tail, ofLines, State.getElem?_run, hline]
    refine ⟨iff_of_false (fun h => h hzero) ?_, fun h => absurd hzero h⟩
    rintro ⟨_, ⟨⟩, -⟩
  | some line =>
    have hlength := hsize line (List.mem_of_getElem? hline)
    constructor
    · rw [tail_ne_zero_iff hline hlength]
      constructor
      · exact fun h => ⟨line, rfl, h⟩
      · rintro ⟨_, ⟨⟩, h⟩
        exact h
    · intro hne
      obtain ⟨hopen, column, hfind⟩ := exists_find_of_tail_ne_zero hline hne
      obtain ⟨hstop, hle⟩ := tail_of_find hline hlength hfind hopen
      refine ⟨line, column, rfl, hfind, hstop, hle, ?_⟩
      rintro path text rfl
      exact exists_row_of_tail hline hlength hstop (Nat.succ_pos _) hle

/-- An assigned literal that ends on the line where another one starts. -/
theorem tail_finishes_literal_reopened :
    let text : Text := "x = \"\"\"a\ny = \"\"\"b\n  c\"\"\" + f(1)\n"
    (∀ line ∈ text.lines, line.length < UInt32.size) ∧ IsOpenAt true text.lines 2 ∧
      ((ofLines true text.lines).tail 2).toNat = 6 ∧
      ∃ row head, (Source.ofText "f" text true).rows[2]? = some row ∧ head.stop = 6 ∧
        row.tokens = head :: (Token.ofLine " + f(1)").map (Token.shift 6) := by
  repeat rw [Text.ofString_ofList]
  intro text
  have hsize : ∀ line ∈ text.lines, line.length < UInt32.size := by decide +kernel
  have htail : (ofLines true text.lines).tail 2 = 6 := by decide +kernel
  obtain ⟨hiff, hfinish⟩ := tail_finishes_literal true hsize 2
  have hne : (ofLines true text.lines).tail 2 ≠ 0 := by
    rw [htail]
    decide
  obtain ⟨line, column, hline, -, hstop, -, hrows⟩ := hfinish hne
  obtain ⟨row, head, hrow, -, hend, -, htokens⟩ := hrows _ _ rfl
  have hcolumn : column + 3 = 6 := by
    rw [← hstop, htail]
    rfl
  obtain ⟨-, -, -, hopen⟩ := hiff.1 hne
  refine ⟨hsize, hopen, by rw [htail]; rfl, row, head, hrow, hend.trans hcolumn, ?_⟩
  have hrest : text.lines[2]? = some (Text.ofString "  c\"\"\" + f(1)") := by
    rw [Text.ofString_ofList]
    decide +kernel
  rw [hrest, Option.some.injEq] at hline
  rw [htokens, hcolumn, htail, ← hline, Text.ofString_ofList]
  rfl

end Exclusion

end MojoLint
