import MojoLint.Proofs.Text.Offsets

/-!
# A text with another line

Bytes put in the place of a line leave the other lines as they are, when they hold no line feed and
end in no carriage return of their own (`Line.exists_replaced`).
-/

namespace MojoLint

/-! ## The first line -/

theorem Text.bne_lf_of_notMem {t : Text} (h : Byte.lf ∉ t) : ∀ b ∈ t, (b != Byte.lf) = true := by
  intro b hb
  rw [bne_iff_ne]
  rintro rfl
  exact h hb

/-- The first line of a text and the lines behind it. -/
theorem Text.split_append_lf {body : Text} (h : Byte.lf ∉ body) (rest : Text) :
    Line.split (body ++ Byte.lf :: rest) = Line.close body [Byte.lf] :: Line.split rest := by
  have hbody := bne_lf_of_notMem h
  have htake : (body ++ Byte.lf :: rest).takeWhile (· != Byte.lf) = body := by
    rw [List.takeWhile_append_of_pos hbody, List.takeWhile_cons_of_neg (by simp), List.append_nil]
  have hdrop : (body ++ Byte.lf :: rest).dropWhile (· != Byte.lf) = Byte.lf :: rest := by
    rw [List.dropWhile_append_of_pos hbody, List.dropWhile_cons_of_neg (by simp)]
  obtain ⟨b, s, hcons⟩ : ∃ b s, body ++ Byte.lf :: rest = b :: s := by
    cases body <;> exact ⟨_, _, rfl⟩
  rw [hcons] at htake hdrop ⊢
  rw [Line.split]
  split
  · rename_i hnil
    rw [hdrop] at hnil
    cases hnil
  · rename_i head rest' hcut
    rw [hdrop] at hcut
    cases hcut
    rw [htake]

theorem Text.text_close_return (body feed : Text) :
    (Line.close (body ++ [Byte.cr]) feed).text = body := by
  simp [Line.close]

theorem Text.text_close_of_cr_notMem {body : Text} (h : Byte.cr ∉ body) (feed : Text) :
    (Line.close body feed).text = body := by
  have hlast : body.getLast? ≠ some Byte.cr := fun hlast => h (List.mem_of_getLast? hlast)
  rw [Line.close, if_neg hlast]

theorem Text.endsWith_lf_iff (t : Text) :
    Text.endsWith t "\n" = true ↔ t.getLast? = some Byte.lf := by
  rw [endsWith, show ("\n" : Text) = [Byte.lf] from rfl, List.isSuffixOf_iff_suffix,
    List.getLast?_eq_some_iff]
  constructor
  · rintro ⟨init, rfl⟩
    exact ⟨init, rfl⟩
  · rintro ⟨init, rfl⟩
    exact ⟨init, rfl⟩

namespace Line

/-- A text without a line feed is one line. -/
theorem split_of_lf_notMem {body : Text} (h : Byte.lf ∉ body) (hne : body ≠ []) :
    split body = [close body []] := by
  obtain ⟨b, s, rfl⟩ := List.exists_cons_of_ne_nil hne
  have hdrop : (b :: s).dropWhile (· != Byte.lf) = [] := by
    rw [← List.append_nil (b :: s), List.dropWhile_append_of_pos (Text.bne_lf_of_notMem h),
      List.dropWhile_nil]
  rw [split]
  split
  · rfl
  · rename_i hcons
    rw [hdrop] at hcons
    cases hcons

/-- A text that holds no ending is the text of its only line. -/
theorem split_of_no_ending {body : Text} (h : Byte.lf ∉ body) (hne : body ≠ [])
    (hcr : body.getLast? ≠ some Byte.cr) : split body = [⟨body, []⟩] := by
  rw [split_of_lf_notMem h hne, close, if_neg hcr]

/-! ## Another line -/

/-- Bytes in the place of a line make a line with the same ending. -/
theorem exists_close_eq {body feed m : Text}
    (hlast : m.getLast? = some Byte.cr → (close body feed).text.getLast? = some Byte.cr)
    (hfeed : Byte.lf ∉ m) :
    ∃ other, m ++ (close body feed).ending = other ++ feed ∧ (close other feed).text = m ∧
      Byte.lf ∉ other := by
  unfold close at hlast ⊢
  split
  · refine ⟨m ++ [Byte.cr], by rw [List.append_assoc]; rfl, Text.text_close_return m feed, ?_⟩
    rw [List.mem_append, List.mem_singleton]
    rintro (hmem | hlf)
    · exact hfeed hmem
    · cases hlf
  · rename_i hbody
    rw [if_neg hbody] at hlast
    refine ⟨m, rfl, ?_, hfeed⟩
    rw [if_neg fun h => hbody (hlast h)]

/-- **Bytes in the place of a line.** -/
theorem exists_replaced {t : Text} {i : Nat} {l : Line} (h : (split t)[i]? = some l) {m : Text}
    (hfeed : Byte.lf ∉ m) (hne : m ≠ [])
    (hlast : m.getLast? = some Byte.cr → l.text.getLast? = some Byte.cr) :
    ∃ above below, t = above ++ (l.bytes ++ below) ∧ above.length = offsetAt (split t) i ∧
      (above ++ (m ++ l.ending ++ below)).lines = t.lines.set i m := by
  fun_induction split t generalizing i with
  | case1 => cases h
  | case2 b s hdrop =>
    cases i with
    | zero =>
      cases h
      obtain ⟨other, hbytes, htext, hother⟩ := exists_close_eq hlast hfeed
      refine ⟨[], [], by simp [bytes_close], by simp, ?_⟩
      rw [List.append_nil] at hbytes
      have hnil : other ≠ [] := by
        rw [← hbytes]
        exact List.append_ne_nil_of_left_ne_nil hne _
      rw [List.nil_append, List.append_nil, hbytes, Text.lines, Text.lines,
        split_of_lf_notMem hother hnil, split_of_lf_notMem (lf_notMem_of_dropWhile hdrop)
          (List.cons_ne_nil b s), List.map_singleton, htext]
      rfl
    | succ i => cases h
  | case3 b s head rest hdrop shorter ih =>
    have hbytes := eq_takeWhile_append_feed hdrop
    have hbody := lf_notMem_takeWhile (b :: s)
    generalize (b :: s).takeWhile (· != Byte.lf) = body at hbytes hbody h
    rw [hbytes, Text.lines, Text.split_append_lf hbody]
    cases i with
    | zero =>
      cases h
      obtain ⟨other, hother, htext, hlf⟩ := exists_close_eq hlast hfeed
      refine ⟨[], rest, ?_, by simp, ?_⟩
      · rw [bytes_close, List.nil_append, List.append_assoc]
        rfl
      · rw [List.nil_append, hother, List.append_assoc, List.singleton_append, Text.lines,
          Text.split_append_lf hlf, List.map_cons, List.map_cons, htext]
        rfl
    | succ i =>
      obtain ⟨above, below, hrest, hlength, hlines⟩ := ih h
      refine ⟨body ++ Byte.lf :: above, below, ?_, ?_, ?_⟩
      · rw [hrest, List.append_assoc, List.cons_append]
      · rw [List.length_append, List.length_cons, hlength, offsetAt, offsetAt, List.take_succ_cons,
          List.map_cons, List.sum_cons, size_close, List.length_singleton]
        omega
      · rw [List.append_assoc, List.cons_append, Text.lines, Text.split_append_lf hbody,
          List.map_cons, List.map_cons, List.set_cons_succ]
        unfold Text.lines at hlines
        rw [hlines]

end Line

end MojoLint
