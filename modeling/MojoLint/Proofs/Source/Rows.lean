import MojoLint.Finding.Basic
import MojoLint.Proofs.Block.Body
import MojoLint.Proofs.Exclusion.Pass
import MojoLint.Proofs.Text.Offsets
import MojoLint.Source.Blocks

/-!
# Rows of a source file

Rules reach a row by its number, through the list of the rows that are not excluded, or through a
slice. These are the same rows.
-/

namespace MojoLint

/-- The finding is reported on line `i`, counted from 0. -/
def Finding.IsOn (f : Finding) (i : Nat) : Prop := f.line = i.toUInt32 + 1

/-- Whether the finding is made by the rule `id`. -/
def Finding.isBy (id : Text) (f : Finding) : Bool := f.id == id

/-- The line of a finding, counted from 0 again. -/
theorem Finding.IsOn.toNat_line {f : Finding} {i : Nat} (h : f.IsOn i) (hi : i < UInt32.size) :
    (f.line - 1).toNat = i := by
  rw [h, UInt32.add_sub_cancel]
  exact Nat.mod_eq_of_lt hi

namespace Source

/-- The finding is reported on a line that is not excluded. -/
def Shows (s : Source) (f : Finding) : Prop := ∃ i row, (row, i) ∈ s.visible ∧ f.IsOn i

/-- The finding is reported on a line that is not excluded, and asks for no edit. -/
def Notes (s : Source) (f : Finding) : Prop := s.Shows f ∧ f.edits = []

theorem mem_visible_iff {s : Source} {row : Row} {i : Nat} :
    (row, i) ∈ s.visible ↔ s.rows[i]? = some row ∧ row.excluded = false := by
  unfold visible
  rw [List.mem_filter, List.mem_zipIdx_iff_getElem?]
  simp

theorem excluded_of_mem_visible {s : Source} {row : Row} {i : Nat} (h : (row, i) ∈ s.visible) :
    s.excluded i = false := by
  obtain ⟨hrow, hex⟩ := mem_visible_iff.1 h
  simp [excluded, hrow, hex]

theorem lt_length_of_mem_visible {s : Source} {row : Row} {i : Nat} (h : (row, i) ∈ s.visible) :
    i < s.rows.length :=
  (List.getElem?_eq_some_iff.1 (mem_visible_iff.1 h).1).1

theorem mem_zipIdx_slice_iff {s : Source} {first stop j : Nat} {row : Row} :
    (row, j) ∈ (s.slice first stop).zipIdx first ↔
      first ≤ j ∧ j < stop ∧ s.rows[j]? = some row := by
  unfold slice
  rw [List.mem_zipIdx_iff_le_and_getElem?_sub]
  constructor
  · rintro ⟨hle, hget⟩
    rw [List.getElem?_take] at hget
    split at hget
    · rename_i hlt
      rw [List.getElem?_drop, Nat.add_sub_cancel' hle] at hget
      exact ⟨hle, by omega, hget⟩
    · cases hget
  · rintro ⟨hle, hlt, hget⟩
    refine ⟨hle, ?_⟩
    rw [List.getElem?_take, if_pos (by omega), List.getElem?_drop, Nat.add_sub_cancel' hle]
    exact hget

theorem mem_slice_iff {s : Source} {first stop : Nat} {row : Row} :
    row ∈ s.slice first stop ↔ ∃ j, first ≤ j ∧ j < stop ∧ s.rows[j]? = some row := by
  constructor
  · intro h
    rw [← List.zipIdx_map_fst first (s.slice first stop)] at h
    obtain ⟨⟨_, j⟩, hj, rfl⟩ := List.mem_map.1 h
    exact ⟨j, mem_zipIdx_slice_iff.1 hj⟩
  · rintro ⟨j, hj⟩
    exact List.fst_mem_of_mem_zipIdx (mem_zipIdx_slice_iff.2 hj)

/-- A condition is met on a line of a body that is not excluded. -/
theorem anyVisible_bodyRows_iff {s : Source} {body : Block} {p : Row → Bool} :
    anyVisible (s.bodyRows body) p = true ↔
      ∃ j row, body.first ≤ j ∧ j < body.stop ∧ s.rows[j]? = some row ∧ row.excluded = false ∧
        p row = true := by
  simp only [anyVisible, bodyRows, List.any_eq_true, mem_slice_iff, Bool.and_eq_true,
    Bool.not_eq_true']
  constructor
  · rintro ⟨row, ⟨j, hfirst, hstop, hrow⟩, hvisible, hp⟩
    exact ⟨j, row, hfirst, hstop, hrow, hvisible, hp⟩
  · rintro ⟨j, row, hfirst, hstop, hrow, hvisible, hp⟩
    exact ⟨row, ⟨j, hfirst, hstop, hrow⟩, hvisible, hp⟩

/-- A function of a file is declared on a row that can declare one. -/
theorem of_mem_functions {s : Source} {f : Function} (h : f ∈ s.functions) :
    ∃ row, s.rows[f.block.header]? = some row ∧ row.canDeclare = true ∧
      Declaration.functionName? row.text = some f.name ∧
      Block.at? s.lines f.block.header = some f.block := by
  obtain ⟨⟨row, i⟩, hrow, hdecl⟩ := List.mem_filterMap.1 h
  simp only at hdecl
  split at hdecl
  · rename_i hcan
    obtain ⟨name, hname, hblock⟩ := Option.bind_eq_some_iff.1 hdecl
    obtain ⟨block, hat, rfl⟩ := Option.map_eq_some_iff.1 hblock
    obtain rfl := (Block.at?_spec hat).1
    exact ⟨row, List.mem_zipIdx_iff_getElem?.1 hrow, hcan, hname, hat⟩
  · cases hdecl

/-! ## The rows of a text -/

section OfText

variable {path text : Text} {checkDocs : Bool}

/-- The row of a line: its text, its offset, and the flags that the lines before it give it. -/
theorem getElem?_rows_ofText {i : Nat} {l : Line} (h : (Line.split text)[i]? = some l) :
    (ofText path text checkDocs).rows[i]? = some (rowOf checkDocs l.text
      (Line.offsetAt (Line.split text) i).toUInt32
      ((Exclusion.State.start.after (text.lines.take i)).flags l.text)) := by
  have hlen : i < (Line.split text).length := (List.getElem?_eq_some_iff.1 h).1
  have hline : ((Line.split text).map Line.text)[i]? = some l.text := by simp [h]
  unfold ofText
  simp only [List.getElem?_zipWith, List.zip, Exclusion.ofLines, Exclusion.State.getElem?_run,
    hline, Line.getElem?_starts 0 (Nat.le_of_lt hlen), Option.map_some, Nat.zero_add]
  rfl

/-- The row of a line depends on the lines up to it only, but for its offset. -/
theorem exists_row_of_take_eq {other : Text} {i : Nat} {row : Row}
    (h : other.lines.take (i + 1) = text.lines.take (i + 1))
    (hrow : (ofText path text checkDocs).rows[i]? = some row) :
    ∃ offset, (ofText path other checkDocs).rows[i]? = some { row with offset } := by
  have hi : i < (Line.split text).length := by
    have := (List.getElem?_eq_some_iff.1 hrow).1
    rwa [length_rows, Text.length_lines] at this
  have hbefore : other.lines.take i = text.lines.take i := by
    have := congrArg (List.take i) h
    rwa [List.take_take, List.take_take, Nat.min_eq_left (Nat.le_succ i)] at this
  have hline : other.lines[i]? = some (Line.split text)[i].text := by
    rw [← List.getElem?_take_of_lt (Nat.lt_succ_self i), h,
      List.getElem?_take_of_lt (Nat.lt_succ_self i), Text.lines, List.getElem?_map,
      List.getElem?_eq_getElem hi, Option.map_some]
  obtain ⟨l, hl, htext⟩ := Option.map_eq_some_iff.1 ((List.getElem?_map ..).symm.trans hline)
  rw [getElem?_rows_ofText (List.getElem?_eq_getElem hi)] at hrow
  cases hrow
  refine ⟨(Line.offsetAt (Line.split other) i).toUInt32, ?_⟩
  rw [getElem?_rows_ofText hl, hbefore, htext]
  rfl

/-- Where a row comes from. -/
theorem exists_line_of_row {i : Nat} {row : Row}
    (h : (ofText path text checkDocs).rows[i]? = some row) :
    ∃ l, (Line.split text)[i]? = some l ∧ row.text = l.text ∧
      row.offset = (Line.offsetAt (Line.split text) i).toUInt32 ∧
      row.tokens = Token.ofClosingLine l.text row.closed.toNat := by
  have hi : i < (Line.split text).length := by
    have := (List.getElem?_eq_some_iff.1 h).1
    rwa [length_rows, Text.lines, List.length_map] at this
  refine ⟨(Line.split text)[i], List.getElem?_eq_getElem hi, ?_⟩
  rw [getElem?_rows_ofText (List.getElem?_eq_getElem hi)] at h
  cases h
  exact ⟨rfl, rfl, rfl⟩

/-- The lines of a source file are those of its text. -/
theorem lines_ofText : (ofText path text checkDocs).lines = text.lines := by
  apply List.ext_getElem?
  intro i
  rw [lines, Text.lines, List.getElem?_map, List.getElem?_map]
  cases h : (Line.split text)[i]? with
  | some l =>
    rw [getElem?_rows_ofText h]
    rfl
  | none =>
    have hlen : (ofText path text checkDocs).rows.length ≤ i := by
      rw [length_rows, Text.lines, List.length_map]
      exact List.getElem?_eq_none_iff.1 h
    rw [List.getElem?_eq_none hlen]
    rfl

/-- Offsets are exact up to 32 bits, also the one behind the last line. -/
theorem offsetOf_ofText {i : Nat} (h : i ≤ text.lines.length) :
    (ofText path text checkDocs).offsetOf i =
      (Line.offsetAt (Line.split text) i).toUInt32 := by
  have hlen := Text.length_lines text
  unfold offsetOf
  cases hget : (Line.split text)[i]? with
  | some l =>
    rw [getElem?_rows_ofText hget]
    rfl
  | none =>
    have hend : i = (Line.split text).length := by
      have := List.getElem?_eq_none_iff.1 hget
      omega
    rw [List.getElem?_eq_none (by rw [length_rows]; omega), hend, Line.offsetAt_length_split]
    rfl

end OfText

end Source

end MojoLint
