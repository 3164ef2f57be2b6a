import MojoLint.Proofs.Edit.Splice
import MojoLint.Proofs.Text.Replace

/-!
# Lines put in between lines

Two texts put together at a line feed have the lines of the one and then those of the other
(`Line.split_append`). So an edit that puts in whole lines at the start of a line adds them to the
lines of the text, and so it does behind a last line without a line feed, when it brings one along
(`Edit.lines_inserted`).
-/

namespace MojoLint

/-! ## Texts put together at a line feed -/

theorem Line.split_append {above : Text} (h : above = [] ∨ ∃ a, above = a ++ [Byte.lf])
    (below : Text) : split (above ++ below) = split above ++ split below := by
  fun_induction split above with
  | case1 => rfl
  | case2 b s hdrop =>
    -- the line feed at the end is missing
    have hfeed := lf_notMem_of_dropWhile hdrop
    rcases h with h | ⟨a, ha⟩
    · cases h
    · rw [ha] at hfeed
      exact absurd (List.mem_append_right a (List.mem_singleton_self _)) hfeed
  | case3 b s head rest hdrop shorter ih =>
    have hbytes := eq_takeWhile_append_feed hdrop
    have hbody := lf_notMem_takeWhile (b :: s)
    generalize (b :: s).takeWhile (· != Byte.lf) = body at hbytes hbody
    have hrest : rest = [] ∨ ∃ a, rest = a ++ [Byte.lf] := by
      rcases List.eq_nil_or_concat rest with rfl | ⟨init, c, rfl⟩
      · exact .inl rfl
      · rcases h with h | ⟨a, ha⟩
        · cases h
        · rw [hbytes, List.concat_eq_append, ← List.cons_append, ← List.append_assoc] at ha
          obtain ⟨-, hc⟩ := List.append_inj' ha rfl
          exact .inr ⟨init, by rw [List.concat_eq_append, hc]⟩
    rw [hbytes, List.append_assoc, List.cons_append, Text.split_append_lf hbody, ih hrest,
      List.cons_append]

theorem Line.text_close (body feed feed' : Text) :
    (close body feed).text = (close body feed').text := by
  unfold close
  split <;> rfl

/-- A line feed behind a last line without one makes no other line. -/
theorem Text.lines_append_feed {t : Text} (hne : t ≠ []) (hlast : t.getLast? ≠ some Byte.lf) :
    lines (t ++ [Byte.lf]) = lines t := by
  fun_induction Line.split t with
  | case1 => exact absurd rfl hne
  | case2 b s hdrop =>
    have hfeed := Line.lf_notMem_of_dropWhile hdrop
    rw [lines, lines, split_append_lf hfeed, Line.split_of_lf_notMem hfeed hne, Line.split,
      List.map_singleton, List.map_singleton, Line.text_close]
  | case3 b s head rest hdrop shorter ih =>
    have hbytes := Line.eq_takeWhile_append_feed hdrop
    have hbody := Line.lf_notMem_takeWhile (b :: s)
    generalize (b :: s).takeWhile (· != Byte.lf) = body at hbytes hbody
    have hrest : rest ≠ [] := by
      rintro rfl
      exact hlast (by rw [hbytes, List.getLast?_concat])
    have hlines := ih hrest (by
      rw [hbytes, List.getLast?_append_cons, List.getLast?_cons_of_ne_nil hrest] at hlast
      exact hlast)
    unfold lines at hlines ⊢
    rw [hbytes, List.append_assoc, List.cons_append, split_append_lf hbody, split_append_lf hbody,
      List.map_cons, List.map_cons, hlines]

namespace Line

theorem offsetAt_inj {t : Text} {i j : Nat} (hi : i ≤ (split t).length) (hj : j ≤ (split t).length)
    (h : offsetAt (split t) i = offsetAt (split t) j) : i = j := by
  have hlt : ∀ {m n}, n ≤ (split t).length → m < n →
      offsetAt (split t) m < offsetAt (split t) n := by
    intro m n hn hmn
    exact Nat.lt_of_lt_of_le (offsetAt_lt_succ (Nat.lt_of_lt_of_le hmn hn))
      (offsetAt_mono (split t) hmn)
  rcases Nat.lt_trichotomy i j with hij | heq | hji
  · have := hlt hj hij
    omega
  · exact heq
  · have := hlt hi hji
    omega

/-- A text cut at the start of a line. -/
theorem exists_split_above {t : Text} {j : Nat} (hj : j ≤ (split t).length)
    (hlast : j = (split t).length → Text.endsWith t [Byte.lf] = true) :
    ∃ above below, t = above ++ below ∧ above.length = offsetAt (split t) j ∧
      (above = [] ∨ ∃ a, above = a ++ [Byte.lf]) ∧ split above = (split t).take j ∧
      split below = (split t).drop j := by
  obtain ⟨above, below, ht, hlength, hends⟩ := exists_above hj hlast
  have hsplit : split t = split above ++ split below := by rw [ht, split_append hends]
  have hsum : offsetAt (split t) (split above).length = above.length := by
    rw [offsetAt, hsplit, List.take_left, ← length_flatMap_bytes, flatMap_bytes_split]
  have hcount : j = (split above).length := by
    refine offsetAt_inj hj ?_ (by rw [hsum, hlength])
    rw [hsplit, List.length_append]
    exact Nat.le_add_right _ _
  refine ⟨above, below, ht, hlength, hends, ?_, ?_⟩
  · rw [hsplit, hcount, List.take_left]
  · rw [hsplit, hcount, List.drop_left]

end Line

/-! ## The edit -/

/-- **Lines put in before line `j`**, also when that is behind the last line. -/
theorem Edit.lines_inserted {t doc lead : Text} {e : Edit} {j : Nat}
    (hpos : 0 < j) (hj : j ≤ (Line.split t).length)
    (hoffset : e.offset.toNat = Line.offsetAt (Line.split t) j) (hlength : e.length = 0)
    (hreplacement : e.replacement = lead ++ doc)
    (hlead : lead =
      if j = (Line.split t).length && !Text.endsWith t "\n" then Text.ofString "\n" else [])
    (hdoc : ∃ d, doc = d ++ [Byte.lf]) :
    ∃ new, applyAll t [e] = ⟨new, none⟩ ∧
      new.lines = t.lines.take j ++ doc.lines ++ t.lines.drop j := by
  by_cases hlast : j = (Line.split t).length ∧ Text.endsWith t "\n" = false
  · rw [if_pos (by simp [hlast])] at hlead
    have hend : e.offset.toNat = t.length := by rw [hoffset, hlast.1, Line.offsetAt_length_split]
    have happly := applyAll_insert [] hend hlength
    rw [List.append_nil] at happly
    refine ⟨_, happly, ?_⟩
    have hne : t ≠ [] := by
      rintro rfl
      rw [Line.split] at hlast
      exact absurd hlast.1 (by simp; omega)
    have hfeed : t.getLast? ≠ some Byte.lf := by
      intro hfeed
      rw [(Text.endsWith_lf_iff t).2 hfeed] at hlast
      cases hlast.2
    have hnew : t ++ (e.replacement ++ []) = (t ++ [Byte.lf]) ++ doc := by
      rw [hreplacement, hlead, List.append_nil, List.append_assoc]
      rfl
    have hlines := Text.lines_append_feed hne hfeed
    have hlen : t.lines.length = j := by rw [Text.length_lines, hlast.1]
    rw [hnew, Text.lines, Line.split_append (.inr ⟨t, rfl⟩), List.map_append, ← Text.lines, hlines,
      ← hlen, List.take_length, List.drop_length, List.append_nil]
    rfl
  · have hfeed : j = (Line.split t).length → Text.endsWith t "\n" = true := by
      intro hj
      cases hends : Text.endsWith t "\n" with
      | true => rfl
      | false => exact absurd ⟨hj, hends⟩ hlast
    rw [if_neg (by simpa using hfeed)] at hlead
    obtain ⟨above, below, ht, habove, hends, htake, hdrop⟩ := Line.exists_split_above hj hfeed
    rw [← habove] at hoffset
    have happly := applyAll_insert below hoffset hlength
    rw [← ht] at happly
    refine ⟨_, happly, ?_⟩
    rw [hreplacement, hlead, List.nil_append, Text.lines, Line.split_append hends,
      Line.split_append (.inr hdoc), htake, hdrop, Text.lines, Text.lines, List.map_append,
      List.map_append, List.map_take, List.map_drop, List.append_assoc]

/-! ## How many lines -/

/-- A text has as many bytes as its lines hold and a line feed for each of them but the last. -/
theorem Text.total_lines_le (t : Text) :
    (t.lines.map List.length).sum + t.lines.length ≤ t.length + 1 := by
  have hclose : ∀ body feed : Text, (Line.close body feed).text.length ≤ body.length := by
    intro body feed
    unfold Line.close
    split
    · simp
    · exact Nat.le_refl _
  fun_induction Line.split t with
  | case1 => simp [lines, Line.split]
  | case2 b s hdrop =>
    have hfeed := Line.lf_notMem_of_dropWhile hdrop
    have hle := hclose (b :: s) []
    rw [lines, Line.split_of_lf_notMem hfeed (List.cons_ne_nil b s)]
    simpa using hle
  | case3 b s head rest hdrop shorter ih =>
    have hbytes := Line.eq_takeWhile_append_feed hdrop
    have hbody := Line.lf_notMem_takeWhile (b :: s)
    generalize (b :: s).takeWhile (· != Byte.lf) = body at hbytes hbody
    have hle := hclose body [Byte.lf]
    have hlines : lines (b :: s) = (Line.close body [Byte.lf]).text :: lines rest := by
      rw [hbytes, lines, split_append_lf hbody, List.map_cons]
      rfl
    rw [hlines, hbytes, List.map_cons, List.sum_cons, List.length_cons, List.length_append,
      List.length_cons]
    omega

end MojoLint
