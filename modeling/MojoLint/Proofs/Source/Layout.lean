import MojoLint.Proofs.Edit.Insertion
import MojoLint.Proofs.Source.Rows
import MojoLint.Proofs.Token.Slices

/-!
# Where the bytes of a source file stand

The lines of a text, the bytes that end them and the offsets where they start hold all of the text
(`Line.Rebuilds`, `Line.rebuilds_split`). A row of a source file takes its offset from there, and
its tokens take their columns from the line, so the sum of the two is the place of the token in the
text: an edit made there replaces the bytes of that token and nothing else
(`Source.lines_rebuild_text`).
-/

namespace MojoLint

/-- The bytes of a text from one offset up to another. -/
def Text.slice (t : Text) (first stop : Nat) : Text := (t.drop first).take (stop - first)

theorem Text.slice_append (before mid behind : Text) :
    slice (before ++ mid ++ behind) before.length (before.length + mid.length) = mid := by
  rw [slice, List.append_assoc, List.drop_left, Nat.add_sub_cancel_left, List.take_left]

namespace Line

/-! ## Lines with their offsets -/

/-- What may end a line. Only the last one can do without a line feed. -/
inductive IsEnding (isLast : Prop) : Text → Prop
  | feed : IsEnding isLast [Byte.lf]
  | returnFeed : IsEnding isLast [Byte.cr, Byte.lf]
  | bareReturn (last : isLast) : IsEnding isLast [Byte.cr]
  | nothing (last : isLast) : IsEnding isLast []

/-- Lines and offsets hold the whole text: every line and every ending is the slice of the text
between its offsets. -/
structure Rebuilds (t : Text) (ls : List Line) (offsets : List UInt32) : Prop where
  length_eq : offsets.length = ls.length + 1
  first : offsets.head? = some 0
  last : offsets.getLast?.map UInt32.toNat = some t.length
  increasing : offsets.Pairwise (· < ·)
  no_feed : ∀ l ∈ ls, Byte.lf ∉ l.text
  text_eq : ∀ (i : Nat) (l : Line) (a : UInt32), ls[i]? = some l → offsets[i]? = some a →
    t.slice a.toNat (a.toNat + l.text.length) = l.text
  ending_eq : ∀ (i : Nat) (l : Line) (a b : UInt32), ls[i]? = some l → offsets[i]? = some a →
    offsets[i + 1]? = some b →
      a.toNat + l.text.length ≤ b.toNat ∧ t.slice (a.toNat + l.text.length) b.toNat = l.ending
  isEnding : ∀ (i : Nat) (l : Line), ls[i]? = some l → IsEnding (i + 1 = ls.length) l.ending
  whole : (ls.flatMap fun l => l.text ++ l.ending) = t

section

variable {t : Text}

/-- No offset wraps in a text that is shorter than the words reach. -/
theorem toNat_of_mem_starts (hsize : t.length < UInt32.size) {i : Nat} {a : UInt32}
    (h : (starts 0 (split t))[i]? = some a) :
    i ≤ (split t).length ∧ a.toNat = offsetAt (split t) i := by
  have hi : i ≤ (split t).length := by
    have hlt := (List.getElem?_eq_some_iff.1 h).1
    rw [length_starts] at hlt
    exact Nat.le_of_lt_succ hlt
  rw [getElem?_starts 0 hi, Nat.zero_add, Option.some.injEq] at h
  rw [← h, Number.toNat_word (Nat.lt_of_le_of_lt (offsetAt_le_length hi) hsize)]
  exact ⟨hi, rfl⟩

theorem pairwise_starts (hsize : t.length < UInt32.size) :
    (starts 0 (split t)).Pairwise (· < ·) := by
  rw [List.pairwise_iff_getElem]
  intro i j hi hj hij
  obtain ⟨-, ha⟩ := toNat_of_mem_starts hsize (List.getElem?_eq_getElem hi)
  obtain ⟨hle, hb⟩ := toNat_of_mem_starts hsize (List.getElem?_eq_getElem hj)
  rw [UInt32.lt_iff_toNat_lt, ha, hb]
  exact Nat.lt_of_lt_of_le (offsetAt_lt_succ (Nat.lt_of_lt_of_le hij hle))
    (offsetAt_mono (split t) hij)

theorem Cut.isEnding {i : Nat} {l : Line} {above below : Text} (h : Cut t i l above below)
    (hl : (split t)[i]? = some l) : IsEnding (i + 1 = (split t).length) l.ending := by
  have hlast : below = [] → i + 1 = (split t).length := by
    rintro rfl
    have hi := (List.getElem?_eq_some_iff.1 hl).1
    have hbytes := congrArg List.length h.bytes_eq
    rw [List.append_nil, List.length_append, h.length_above, bytes, List.length_append] at hbytes
    refine offsetAt_inj hi (Nat.le_refl _) ?_
    rw [offsetAt_succ hl, offsetAt_length_split, size, hbytes]
  obtain ⟨ret, rfl | rfl, heq | ⟨heq, hbelow⟩⟩ := h.ending <;> rw [heq]
  · exact .feed
  · exact .nothing (hlast hbelow)
  · exact .returnFeed
  · exact .bareReturn (hlast hbelow)

/-- **Lines and offsets rebuild the text.** -/
theorem rebuilds_split (hsize : t.length < UInt32.size) :
    Rebuilds t (split t) (starts 0 (split t)) := by
  refine ⟨length_starts 0 _, ?_, ?_, pairwise_starts hsize, ?_, ?_, ?_, ?_, flatMap_bytes_split t⟩
  · rw [List.head?_eq_getElem?, getElem?_starts 0 (Nat.zero_le _), offsetAt_zero]
    rfl
  · rw [List.getLast?_eq_getElem?, length_starts, Nat.add_sub_cancel,
      getElem?_starts 0 (Nat.le_refl _), offsetAt_length_split, Nat.zero_add, Option.map_some,
      Number.toNat_word hsize]
  · intro l hl
    obtain ⟨i, hi⟩ := List.mem_iff_getElem?.1 hl
    obtain ⟨above, below, hcut⟩ := exists_cut hi
    exact hcut.no_feed
  · intro i l a hl ha
    obtain ⟨above, below, hcut⟩ := exists_cut hl
    obtain ⟨-, ha⟩ := toNat_of_mem_starts hsize ha
    have ht : t = above ++ l.text ++ (l.ending ++ below) := by
      rw [hcut.bytes_eq, bytes]
      simp only [List.append_assoc]
    rw [ha, ← hcut.length_above]
    conv_lhs => rw [ht]
    exact Text.slice_append above l.text _
  · intro i l a b hl ha hb
    obtain ⟨above, below, hcut⟩ := exists_cut hl
    obtain ⟨-, ha⟩ := toNat_of_mem_starts hsize ha
    obtain ⟨-, hb⟩ := toNat_of_mem_starts hsize hb
    have ht : t = above ++ l.text ++ l.ending ++ below := by
      rw [hcut.bytes_eq, bytes]
      simp only [List.append_assoc]
    have hplace : a.toNat + l.text.length = (above ++ l.text).length := by
      rw [ha, List.length_append, hcut.length_above]
    have hnext : b.toNat = (above ++ l.text).length + l.ending.length := by
      rw [hb, offsetAt_succ hl, size, ← Nat.add_assoc, ← ha, hplace]
    rw [hplace, hnext]
    refine ⟨Nat.le_add_right _ _, ?_⟩
    conv_lhs => rw [ht]
    exact Text.slice_append (above ++ l.text) l.ending below
  · intro i l hl
    obtain ⟨above, below, hcut⟩ := exists_cut hl
    exact hcut.isEnding hl

end

end Line

namespace Source

/-! ## Tokens in the text -/

/-- The bytes `old` stand in the text at the offset, and an edit made there for as many bytes
replaces them and no others. -/
def StandsAt (t : Text) (offset : UInt32) (old : Text) : Prop :=
  ∃ before behind, t = before ++ old ++ behind ∧ offset.toNat = before.length ∧
    ∀ e : Edit, e.offset = offset → e.length.toNat = old.length →
      Edit.applyAll t [e] = ⟨before ++ e.replacement ++ behind, none⟩

variable {path t : Text} {checkDocs : Bool}

theorem offsets_ofText :
    (ofText path t checkDocs).rows.map Row.offset ++ [(ofText path t checkDocs).eof] =
      Line.starts 0 (Line.split t) := by
  have hlength : (ofText path t checkDocs).rows.length = (Line.split t).length := by
    rw [length_rows, Text.length_lines]
  apply List.ext_getElem?
  intro i
  rcases Nat.lt_trichotomy i (Line.split t).length with hi | hi | hi
  · have hline := List.getElem?_eq_getElem hi
    rw [List.getElem?_append_left (by rwa [List.length_map, hlength]), List.getElem?_map,
      getElem?_rows_ofText hline, Line.getElem?_starts 0 (Nat.le_of_lt hi), Nat.zero_add]
    rfl
  · rw [hi, List.getElem?_append_right (by rw [List.length_map, hlength]), List.length_map, hlength,
      Nat.sub_self, Line.getElem?_starts 0 (Nat.le_refl _), Line.offsetAt_length_split,
      Nat.zero_add]
    rfl
  · rw [List.getElem?_eq_none, List.getElem?_eq_none]
    · rwa [Line.length_starts]
    · rwa [List.length_append, List.length_map, hlength]

/-- A token stands in the text at the offset of its row and its column. -/
theorem standsAt_of_mem_tokens (hsize : t.length < UInt32.size) {row : Row}
    (hrow : row ∈ (ofText path t checkDocs).rows) {u : Token} (hu : u ∈ row.tokens) :
    StandsAt t (row.offset + u.column) u.text := by
  obtain ⟨i, hi⟩ := List.mem_iff_getElem?.1 hrow
  obtain ⟨l, hl, -, hoffset, htokens⟩ := exists_line_of_row hi
  rw [htokens] at hu
  obtain ⟨before, behind, hline, hcolumn⟩ := Token.exists_slice_of_mem_ofClosingLine hu
  obtain ⟨above, below, hcut⟩ := Line.exists_cut hl
  have ht : t = (above ++ before) ++ u.text ++ (behind ++ (l.ending ++ below)) := by
    rw [hcut.bytes_eq, Line.bytes, hline]
    simp only [List.append_assoc]
  have hplace : (row.offset + u.column).toNat = (above ++ before).length := by
    have hlength := congrArg List.length ht
    simp only [List.length_append] at hlength
    rw [hoffset, hcolumn, ← hcut.length_above, Number.toNat_word_add (by omega),
      List.length_append]
  refine ⟨above ++ before, behind ++ (l.ending ++ below), ht, hplace, ?_⟩
  intro e hoffset hlength
  conv_lhs => rw [ht]
  exact Edit.applyAll_replace _ (hoffset ▸ hplace) hlength

/-- **A source file keeps its text**, line by line: lines, endings and offsets rebuild the text, and
every token of a row stands in the text at the offset of the row and its own column. -/
theorem lines_rebuild_text (path : Text) (checkDocs : Bool) {t : Text}
    (hsize : t.length < UInt32.size) :
    Line.Rebuilds t (Line.split t) (Line.starts 0 (Line.split t)) ∧
      (ofText path t checkDocs).lines = (Line.split t).map Line.text ∧
      (ofText path t checkDocs).rows.map Row.offset ++ [(ofText path t checkDocs).eof] =
        Line.starts 0 (Line.split t) ∧
      ∀ row ∈ (ofText path t checkDocs).rows, ∀ u ∈ row.tokens,
        StandsAt t (row.offset + u.column) u.text :=
  ⟨Line.rebuilds_split hsize, lines_ofText, offsets_ofText, fun _ hrow _ hu =>
    standsAt_of_mem_tokens hsize hrow hu⟩

/-- Lines that end in each of the ways. -/
theorem lines_rebuild_text_mixed :
    let t : Text := "a\r\n\nlet b\r"
    t.length < UInt32.size ∧ Line.Rebuilds t (Line.split t) (Line.starts 0 (Line.split t)) ∧
      (ofText "f" t false).lines = ["a", "", "let b"] ∧
      Line.starts 0 (Line.split t) = [0, 3, 4, 10] ∧ StandsAt t 8 "b" := by
  repeat rw [Text.ofString_ofList]
  intro t
  have hsize : t.length < UInt32.size := by decide
  obtain ⟨hrebuilds, -, -, hstands⟩ := lines_rebuild_text "f" false hsize
  refine ⟨hsize, hrebuilds, by decide +kernel, by decide +kernel, ?_⟩
  obtain ⟨row, hrow, u, hu, hplace, htext⟩ : ∃ row ∈ (ofText "f" t false).rows, ∃ u ∈ row.tokens,
      row.offset + u.column = 8 ∧ u.text = "b" := by
    decide +kernel
  have h := hstands row hrow u hu
  rwa [hplace, htext] at h

end Source

end MojoLint
