import Mathlib.Algebra.GroupWithZero.Nat
import MojoLint.Text.Lines

/-!
# Where lines start

`Line.offsetAt` is the exact offset of a line, in numbers that do not wrap. The words that
`Line.starts` lists are these numbers cut to 32 bits, and the offset behind the last line is the
size of the text.
-/

namespace MojoLint

theorem Text.length_lines (t : Text) : t.lines.length = (Line.split t).length :=
  List.length_map _

/-! ## Words that do not wrap -/

theorem Number.toNat_word {n : Nat} (h : n < UInt32.size) : n.toUInt32.toNat = n :=
  Nat.mod_eq_of_lt h

theorem Number.toNat_word_add {m n : Nat} (h : m + n < UInt32.size) :
    (m.toUInt32 + n.toUInt32).toNat = m + n := by
  rw [UInt32.toNat_add, toNat_word (by omega), toNat_word (by omega)]
  exact Nat.mod_eq_of_lt h

namespace Line

/-! ## Exact offsets -/

/-- The number of bytes before line `i`. -/
def offsetAt (ls : List Line) (i : Nat) : Nat := ((ls.take i).map size).sum

@[simp] theorem offsetAt_zero (ls : List Line) : offsetAt ls 0 = 0 := by simp [offsetAt]

theorem offsetAt_succ {ls : List Line} {i : Nat} {l : Line} (h : ls[i]? = some l) :
    offsetAt ls (i + 1) = offsetAt ls i + l.size := by
  unfold offsetAt
  rw [List.take_add_one, h]
  simp

theorem offsetAt_mono (ls : List Line) {i j : Nat} (h : i ≤ j) : offsetAt ls i ≤ offsetAt ls j := by
  induction h with
  | refl => exact Nat.le_refl _
  | @step j _ ih =>
    cases hj : ls[j]? with
    | some l =>
      rw [offsetAt_succ hj]
      omega
    | none =>
      have hlen : ls.length ≤ j := List.getElem?_eq_none_iff.1 hj
      have hsame : offsetAt ls (j + 1) = offsetAt ls j := by
        rw [offsetAt, offsetAt, List.take_of_length_le hlen, List.take_of_length_le (by omega)]
      rw [hsame]
      exact ih

theorem size_close (body feed : Text) : (close body feed).size = body.length + feed.length := by
  have h := congrArg List.length (bytes_close body feed)
  rwa [bytes, List.length_append, List.length_append] at h

/-- No line of a text is empty once its ending is counted. -/
theorem size_pos_of_mem_split {t : Text} {l : Line} (h : l ∈ split t) : 0 < l.size := by
  fun_induction split t with
  | case1 => cases h
  | case2 b s =>
    obtain rfl := List.mem_singleton.1 h
    rw [size_close, List.length_cons]
    omega
  | case3 b s head rest hdrop shorter ih =>
    rcases List.mem_cons.1 h with rfl | h
    · rw [size_close, List.length_singleton]
      omega
    · exact ih h

theorem getElem?_starts (pos : Nat) {ls : List Line} {i : Nat} (h : i ≤ ls.length) :
    (starts pos ls)[i]? = some (pos + offsetAt ls i).toUInt32 := by
  induction ls generalizing pos i with
  | nil =>
    obtain rfl : i = 0 := Nat.le_zero.1 h
    simp [starts]
  | cons l rest ih =>
    cases i with
    | zero => simp [starts]
    | succ i =>
      have hsum : offsetAt (l :: rest) (i + 1) = l.size + offsetAt rest i := rfl
      rw [starts, List.getElem?_cons_succ, ih (pos + l.size) (Nat.le_of_succ_le_succ h), hsum,
        Nat.add_assoc]

theorem length_flatMap_bytes (ls : List Line) :
    (ls.flatMap bytes).length = (ls.map size).sum := by
  induction ls with
  | nil => rfl
  | cons l rest ih =>
    rw [List.flatMap_cons, List.length_append, ih, List.map_cons, List.sum_cons, bytes,
      List.length_append, size]

/-- The lines of a text end where the text ends. -/
theorem offsetAt_length_split (t : Text) : offsetAt (split t) (split t).length = t.length := by
  rw [offsetAt, List.take_length, ← length_flatMap_bytes, flatMap_bytes_split]

theorem offsetAt_le_length {t : Text} {i : Nat} (h : i ≤ (split t).length) :
    offsetAt (split t) i ≤ t.length := by
  have := offsetAt_mono (split t) h
  rwa [offsetAt_length_split] at this

theorem offsetAt_lt_succ {t : Text} {i : Nat} (h : i < (split t).length) :
    offsetAt (split t) i < offsetAt (split t) (i + 1) := by
  rw [offsetAt_succ (List.getElem?_eq_getElem h)]
  have := size_pos_of_mem_split (List.getElem_mem h)
  omega

/-! ## A text cut at a line -/

/-- Line `i` of a text, with what stands above it and below it. Only the last line can be without a
line feed at its end. -/
structure Cut (t : Text) (i : Nat) (l : Line) (above below : Text) : Prop where
  bytes_eq : t = above ++ (l.bytes ++ below)
  length_above : above.length = offsetAt (split t) i
  above_ends : above = [] ∨ ∃ a, above = a ++ [Byte.lf]
  no_feed : Byte.lf ∉ l.text
  ending : ∃ ret, (ret = [] ∨ ret = [Byte.cr]) ∧
    (l.ending = ret ++ [Byte.lf] ∨ l.ending = ret ∧ below = [])

theorem close_spec {body : Text} (h : Byte.lf ∉ body) (feed : Text) :
    Byte.lf ∉ (close body feed).text ∧
      ∃ ret, (ret = [] ∨ ret = [Byte.cr]) ∧ (close body feed).ending = ret ++ feed := by
  unfold close
  split
  · exact ⟨fun hmem => h ((List.dropLast_sublist body).subset hmem), [Byte.cr], .inr rfl, rfl⟩
  · exact ⟨h, [], .inl rfl, rfl⟩

theorem lf_notMem_takeWhile (t : Text) : Byte.lf ∉ t.takeWhile (· != Byte.lf) := by
  intro h
  have := List.all_eq_true.1 List.all_takeWhile _ h
  simp at this

theorem lf_notMem_of_dropWhile {t : Text} (h : t.dropWhile (· != Byte.lf) = []) :
    Byte.lf ∉ t := by
  have := List.takeWhile_append_dropWhile (p := (· != Byte.lf)) (l := t)
  rw [h, List.append_nil] at this
  rw [← this]
  exact lf_notMem_takeWhile t

theorem eq_takeWhile_append_feed {t rest : Text} {b : UInt8}
    (h : t.dropWhile (· != Byte.lf) = b :: rest) :
    t = t.takeWhile (· != Byte.lf) ++ Byte.lf :: rest := by
  have hb : b = Byte.lf := by
    have := List.head?_dropWhile_not (· != Byte.lf) t
    simpa [h] using this
  rw [hb] at h
  rw [← h, List.takeWhile_append_dropWhile]

theorem exists_cut {t : Text} {i : Nat} {l : Line} (h : (split t)[i]? = some l) :
    ∃ above below, Cut t i l above below := by
  fun_induction split t generalizing i with
  | case1 => cases h
  | case2 b s hdrop =>
    obtain ⟨hfeed, ret, hret, hending⟩ := close_spec (lf_notMem_of_dropWhile hdrop) []
    cases i with
    | zero =>
      cases h
      rw [List.append_nil] at hending
      exact ⟨[], [], by simp [bytes_close], by simp, .inl rfl, hfeed, ret, hret,
        .inr ⟨hending, rfl⟩⟩
    | succ i => cases h
  | case3 b s head rest hdrop shorter ih =>
    obtain ⟨hfeed, ret, hret, hending⟩ :=
      close_spec (lf_notMem_takeWhile (b :: s)) [Byte.lf]
    have hbytes : b :: s = (close ((b :: s).takeWhile (· != Byte.lf)) [Byte.lf]).bytes ++ rest := by
      rw [bytes_close, List.append_assoc]
      exact eq_takeWhile_append_feed hdrop
    cases i with
    | zero =>
      cases h
      exact ⟨[], rest, hbytes, by simp, .inl rfl, hfeed, ret, hret, .inl hending⟩
    | succ i =>
      obtain ⟨above, below, hcut⟩ := ih h
      have hsplit : split (b :: s) =
          close ((b :: s).takeWhile (· != Byte.lf)) [Byte.lf] :: split rest := by
        rw [split]
        split
        · rename_i hnil
          rw [hdrop] at hnil
          cases hnil
        · rename_i hcons
          rw [hdrop] at hcons
          cases hcons
          rfl
      generalize close ((b :: s).takeWhile (· != Byte.lf)) [Byte.lf] = first at *
      refine ⟨first.bytes ++ above, below, ?_, ?_, .inr ?_, hcut.no_feed, hcut.ending⟩
      · rw [hbytes, hcut.bytes_eq]
        simp only [List.append_assoc]
      · rw [hsplit, List.length_append, hcut.length_above, offsetAt, offsetAt, List.take_succ_cons,
          List.map_cons, List.sum_cons, bytes, List.length_append, size]
      · rcases hcut.above_ends with rfl | ⟨a, rfl⟩
        · exact ⟨first.text ++ ret, by rw [bytes, hending]; simp⟩
        · exact ⟨first.bytes ++ a, by simp⟩

/-- What stands above the start of a line, also of the empty one behind a line feed at the end. -/
theorem exists_above {t : Text} {j : Nat} (hj : j ≤ (split t).length)
    (hlast : j = (split t).length → Text.endsWith t [Byte.lf] = true) :
    ∃ above below, t = above ++ below ∧ above.length = offsetAt (split t) j ∧
      (above = [] ∨ ∃ a, above = a ++ [Byte.lf]) := by
  rcases Nat.lt_or_eq_of_le hj with hlt | heq
  · obtain ⟨above, below, hcut⟩ := exists_cut (List.getElem?_eq_getElem hlt)
    exact ⟨above, _, hcut.bytes_eq, hcut.length_above, hcut.above_ends⟩
  · obtain ⟨a, ha⟩ := List.isSuffixOf_iff_suffix.1 (hlast heq)
    exact ⟨t, [], (List.append_nil t).symm, by rw [heq, offsetAt_length_split], .inr ⟨a, ha.symm⟩⟩

/-- A line lies within its text. -/
theorem offsetAt_add_length_le {t : Text} {i : Nat} {l : Line} (h : (split t)[i]? = some l) :
    offsetAt (split t) i + l.text.length ≤ t.length := by
  have hlt := (List.getElem?_eq_some_iff.1 h).1
  have hle := offsetAt_le_length (Nat.succ_le_of_lt hlt)
  rw [offsetAt_succ h, size] at hle
  omega

/-- A text has no more lines than bytes. -/
theorem length_split_le (t : Text) : (split t).length ≤ t.length := by
  have hcount : ∀ i ≤ (split t).length, i ≤ offsetAt (split t) i := by
    intro i hi
    induction i with
    | zero => exact Nat.zero_le _
    | succ i ih =>
      have := ih (Nat.le_of_succ_le hi)
      have := offsetAt_lt_succ hi
      omega
  have := hcount _ (Nat.le_refl _)
  rwa [offsetAt_length_split] at this

end Line

/-- A line is no longer than its text. -/
theorem Text.length_lt_of_mem_lines {t : Text} {n : Nat} (h : t.length < n) {line : Text}
    (hline : line ∈ t.lines) : line.length < n := by
  obtain ⟨l, hl, rfl⟩ := List.mem_map.1 hline
  obtain ⟨j, hj⟩ := List.mem_iff_getElem?.1 hl
  have := Line.offsetAt_add_length_le hj
  omega

end MojoLint
