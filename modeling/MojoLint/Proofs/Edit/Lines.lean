import MojoLint.Proofs.Edit.Splice
import MojoLint.Proofs.Text.Replace

/-!
# Edits within lines

An edit that replaces bytes within a line, and puts in none that end it, makes another line of it
(`Rewrites`). Edits of different lines do not get in each other's way: all of them are selected and
carried out, and the lines of the new text are the old ones, rewritten where there is an edit
(`OnLines.select_eq`, `OnLines.applyAll_eq`).
-/

namespace MojoLint

/-! ## Other bytes in a line -/

/-- The bytes can stand in the place of the line, whatever its ending is. -/
structure Line.Takes (l : Line) (m : Text) : Prop where
  no_feed : Byte.lf ∉ m
  nonempty : m ≠ []
  last : m.getLast? = some Byte.cr → l.text.getLast? = some Byte.cr

theorem Line.Takes.exists_close {body feed m : Text} (h : (close body feed).Takes m) :
    ∃ other, close other feed = ⟨m, (close body feed).ending⟩ ∧ Byte.lf ∉ other ∧ other ≠ [] := by
  obtain ⟨other, hbytes, htext, hfeed⟩ := exists_close_eq h.last h.no_feed
  have hclose : close other feed = ⟨m, (close body feed).ending⟩ := by
    have hsame := bytes_close other feed
    rw [bytes, htext, ← hbytes] at hsame
    rw [← List.append_cancel_left hsame, ← htext]
  refine ⟨other, hclose, hfeed, ?_⟩
  rintro rfl
  have hempty : (close [] feed).text = [] := rfl
  rw [htext] at hempty
  exact h.nonempty hempty

theorem Line.lf_notMem {t : Text} {i : Nat} {l : Line} (h : (split t)[i]? = some l) :
    Byte.lf ∉ l.text := by
  obtain ⟨above, below, hcut⟩ := exists_cut h
  exact hcut.no_feed

/-- Other bytes before the end of the line. -/
theorem Line.takes_before_end {l : Line} {before old mid behind : Text} (hfeed : Byte.lf ∉ l.text)
    (hbytes : l.text = before ++ old ++ behind) (hmid : Byte.lf ∉ mid) (hbehind : behind ≠ []) :
    l.Takes (before ++ mid ++ behind) := by
  rw [hbytes, List.append_assoc, List.mem_append, List.mem_append, not_or, not_or] at hfeed
  refine ⟨?_, List.append_ne_nil_of_right_ne_nil _ hbehind, ?_⟩
  · exact List.not_mem_append (List.not_mem_append hfeed.1 hmid) hfeed.2.2
  · rw [hbytes, List.getLast?_append_of_ne_nil _ hbehind, List.getLast?_append_of_ne_nil _ hbehind]
    exact id

namespace Edit

/-- The edit replaces bytes of the line `l`, which starts at `pos`, and makes `m` of its text. -/
inductive Rewrites (pos : Nat) (l : Line) (e : Edit) (m : Text) : Prop
  | intro (before old behind : Text) (bytes : l.text = before ++ old ++ behind)
      (offset : e.offset.toNat = pos + before.length) (length : e.length.toNat = old.length)
      (nonempty : old ≠ []) (made : m = before ++ e.replacement ++ behind) (takes : l.Takes m)

theorem Rewrites.takes {pos : Nat} {l : Line} {e : Edit} {m : Text} (h : e.Rewrites pos l m) :
    l.Takes m := by
  cases h with
  | intro before old behind bytes offset length nonempty made takes => exact takes

/-- The edit replaces at least one byte, and only bytes of the line. -/
theorem Rewrites.bounds {pos : Nat} {l : Line} {e : Edit} {m : Text} (h : e.Rewrites pos l m) :
    pos ≤ e.offset.toNat ∧ e.offset.toNat < e.stop ∧ e.stop ≤ pos + l.size := by
  cases h with
  | intro before old behind hbytes hoffset hlength hne _ _ =>
    have hlen := congrArg List.length hbytes
    have hpos := List.length_pos_iff.2 hne
    rw [List.length_append, List.length_append] at hlen
    rw [stop, Line.size]
    omega

/-- The lines `ls`, which start at `pos`, become `ms` by the edits, at most one on a line. -/
inductive OnLines : Nat → List Line → List Edit → List Line → Prop
  | nil (pos : Nat) : OnLines pos [] [] []
  | keep {pos : Nat} {l : Line} {ls ms : List Line} {es : List Edit}
      (later : OnLines (pos + l.size) ls es ms) : OnLines pos (l :: ls) es (l :: ms)
  | edit {pos : Nat} {l : Line} {m : Text} {e : Edit} {ls ms : List Line} {es : List Edit}
      (here : e.Rewrites pos l m) (later : OnLines (pos + l.size) ls es ms) :
      OnLines pos (l :: ls) (e :: es) (⟨m, l.ending⟩ :: ms)

namespace OnLines

variable {pos : Nat} {ls ms : List Line} {es : List Edit}

theorem refl (pos : Nat) (ls : List Line) : OnLines pos ls [] ls := by
  induction ls generalizing pos with
  | nil => exact .nil pos
  | cons l ls ih => exact .keep (ih (pos + l.size))

/-- A single edit on a line. -/
theorem single {i : Nat} {l : Line} {m : Text} {e : Edit} (hl : ls[i]? = some l)
    (h : e.Rewrites (pos + Line.offsetAt ls i) l m) :
    OnLines pos ls [e] (ls.set i ⟨m, l.ending⟩) := by
  induction ls generalizing pos i with
  | nil => cases hl
  | cons first ls ih =>
    cases i with
    | zero =>
      cases hl
      rw [Line.offsetAt_zero, Nat.add_zero] at h
      exact .edit h (refl _ ls)
    | succ i =>
      have hoffset : Line.offsetAt (first :: ls) (i + 1) = first.size + Line.offsetAt ls i := rfl
      rw [hoffset, ← Nat.add_assoc] at h
      exact .keep (ih hl h)

theorem le_offset (h : OnLines pos ls es ms) : ∀ e ∈ es, pos ≤ e.offset.toNat := by
  induction h with
  | nil => exact nofun
  | keep later ih =>
    intro e he
    exact Nat.le_trans (Nat.le_add_right _ _) (ih e he)
  | edit here later ih =>
    refine List.forall_mem_cons.2 ⟨here.bounds.1, ?_⟩
    intro e he
    exact Nat.le_trans (Nat.le_add_right _ _) (ih e he)

theorem stop_le (h : OnLines pos ls es ms) :
    ∀ e ∈ es, e.stop ≤ pos + (ls.flatMap Line.bytes).length := by
  induction h with
  | nil => exact nofun
  | @keep pos l ls ms es later ih =>
    intro e he
    have := ih e he
    rw [List.flatMap_cons, List.length_append, Line.bytes, List.length_append, ← Line.size]
    omega
  | @edit pos l m first ls ms es here later ih =>
    intro e he
    have hstop := here.bounds.2.2
    rw [List.flatMap_cons, List.length_append, Line.bytes, List.length_append, ← Line.size]
    rcases List.mem_cons.1 he with rfl | he
    · omega
    · have := ih e he
      omega

/-- Each edit starts behind the start of the ones before it, and behind their end. -/
theorem pairwise (h : OnLines pos ls es ms) :
    es.Pairwise fun a b => a.offset.toNat < b.offset.toNat ∧ a.stop ≤ b.offset.toNat := by
  induction h with
  | nil => exact .nil
  | keep later ih => exact ih
  | edit here later ih =>
    refine List.pairwise_cons.2 ⟨?_, ih⟩
    intro e he
    have := here.bounds
    have := later.le_offset e he
    omega

theorem ordered (h : OnLines pos ls es ms) : Ordered es := h.pairwise.imp And.right

/-- **Edits of different lines are all selected.** -/
theorem select_eq (h : OnLines pos ls es ms)
    (hsize : pos + (ls.flatMap Line.bytes).length < UInt32.size) : select es = ⟨es, 0⟩ := by
  have hprecedes : es.Pairwise fun a b => precedes a b = true := by
    apply h.pairwise.imp
    intro a b hab
    exact precedes_iff.2 (.inl hab.1)
  have hcompatible : es.Pairwise Compatible := by
    apply (hprecedes.and h.pairwise).imp
    rintro a b ⟨hab, hlt, hstop⟩
    refine (compatible_iff_of_precedes hab).2 ⟨?_, hstop⟩
    intro heq
    rw [heq] at hlt
    exact Nat.lt_irrefl _ hlt
  have hstop : ∀ e ∈ es, e.stop < UInt32.size := fun e he =>
    Nat.lt_of_le_of_lt (h.stop_le e he) hsize
  rw [select, List.mergeSort_of_pairwise hprecedes]
  exact selectFrom_of_compatible tracks_nil hprecedes hstop hcompatible

/-- One pass over the bytes of the lines makes those of the new lines. -/
theorem spliceFrom_eq (h : OnLines pos ls es ms) :
    spliceFrom pos (ls.flatMap Line.bytes) es = ms.flatMap Line.bytes := by
  induction h with
  | nil => rfl
  | @keep pos l ls ms es later ih =>
    have hskip : spliceFrom pos (l.bytes ++ ls.flatMap Line.bytes) es =
        l.bytes ++ spliceFrom (pos + l.bytes.length) (ls.flatMap Line.bytes) es := by
      apply spliceFrom_skip
      rw [Line.bytes, List.length_append, ← Line.size]
      exact later.le_offset
    rw [List.flatMap_cons, List.flatMap_cons, hskip, Line.bytes, List.length_append, ← Line.size,
      ih]
  | @edit pos l m e ls ms es here later ih =>
    cases here with
    | intro before old behind hbytes hoffset hlength _ hmade _ =>
      have hsize : pos + l.size = e.stop + (behind ++ l.ending).length := by
        rw [stop, hoffset, hlength, Line.size, hbytes]
        simp only [List.length_append]
        omega
      rw [hsize] at ih later
      have hline : (l :: ls).flatMap Line.bytes =
          before ++ old ++ ((behind ++ l.ending) ++ ls.flatMap Line.bytes) := by
        rw [List.flatMap_cons, Line.bytes, hbytes]
        simp only [List.append_assoc]
      have htake : (before ++ old ++ ((behind ++ l.ending) ++ ls.flatMap Line.bytes)).take
          (e.offset.toNat - pos) = before := by
        rw [hoffset, Nat.add_sub_cancel_left, List.append_assoc, List.take_left]
      have hdrop : (before ++ old ++ ((behind ++ l.ending) ++ ls.flatMap Line.bytes)).drop
          (e.stop - pos) = (behind ++ l.ending) ++ ls.flatMap Line.bytes := by
        refine List.drop_left' ?_
        rw [stop, hoffset, hlength, List.length_append]
        omega
      rw [hline, spliceFrom, htake, hdrop, spliceFrom_skip later.le_offset, ih, List.flatMap_cons,
        Line.bytes, hmade]
      simp only [List.append_assoc]

/-- The bytes of the new lines are a text with these lines. -/
theorem split_eq {t : Text} (h : OnLines pos (Line.split t) es ms) :
    Line.split (ms.flatMap Line.bytes) = ms := by
  fun_induction Line.split t generalizing pos es ms with
  | case1 =>
    cases h
    rw [List.flatMap_nil, Line.split]
  | case2 b s hdrop =>
    have hline : Line.split (b :: s) = [Line.close (b :: s) []] :=
      Line.split_of_lf_notMem (Line.lf_notMem_of_dropWhile hdrop) (List.cons_ne_nil b s)
    cases h with
    | keep later =>
      cases later
      rw [List.flatMap_singleton, Line.bytes_close, List.append_nil, hline]
    | @edit _ _ m e _ _ _ here later =>
      cases later
      obtain ⟨other, hclose, hfeed, hne⟩ := here.takes.exists_close
      rw [← hclose, List.flatMap_singleton, Line.bytes_close, List.append_nil,
        Line.split_of_lf_notMem hfeed hne]
  | case3 b s head rest hdrop shorter ih =>
    have hbody := Line.lf_notMem_takeWhile (b :: s)
    generalize (b :: s).takeWhile (· != Byte.lf) = body at hbody h
    cases h with
    | keep later =>
      rw [List.flatMap_cons, Line.bytes_close, List.append_assoc, List.singleton_append,
        Text.split_append_lf hbody, ih later]
    | @edit _ _ m e _ ms es here later =>
      obtain ⟨other, hclose, hfeed, -⟩ := here.takes.exists_close
      rw [← hclose, List.flatMap_cons, Line.bytes_close, List.append_assoc, List.singleton_append,
        Text.split_append_lf hfeed, ih later]

/-- **Edits of different lines are carried out**, and make the new lines. -/
theorem applyAll_eq {t : Text} (h : OnLines 0 (Line.split t) es ms) :
    ∃ new, applyAll t es = ⟨new, none⟩ ∧ Line.split new = ms := by
  refine ⟨ms.flatMap Line.bytes, ?_, h.split_eq⟩
  have hsplice := h.spliceFrom_eq
  have hstop := h.stop_le
  rw [Line.flatMap_bytes_split] at hsplice hstop
  rw [Nat.zero_add] at hstop
  rw [applyAll_eq_spliceFrom h.ordered hstop, hsplice]

end OnLines

/-- **A single edit within a line.** -/
theorem Rewrites.applyAll_eq {t m : Text} {i : Nat} {l : Line} {e : Edit}
    (hl : (Line.split t)[i]? = some l) (h : e.Rewrites (Line.offsetAt (Line.split t) i) l m) :
    ∃ new, applyAll t [e] = ⟨new, none⟩ ∧ new.lines = t.lines.set i m := by
  rw [← Nat.zero_add (Line.offsetAt _ _)] at h
  obtain ⟨new, happly, hsplit⟩ := (OnLines.single hl h).applyAll_eq
  refine ⟨new, happly, ?_⟩
  rw [Text.lines, hsplit, Text.lines, List.map_set]

/-- **A single insertion into a line**, before its end. -/
theorem applyAll_into_line {t before behind : Text} {i : Nat} {l : Line} {e : Edit}
    (hl : (Line.split t)[i]? = some l) (hbytes : l.text = before ++ behind) (hbehind : behind ≠ [])
    (hoffset : e.offset.toNat = Line.offsetAt (Line.split t) i + before.length)
    (hlength : e.length = 0) (hfeed : Byte.lf ∉ e.replacement) :
    ∃ new, applyAll t [e] = ⟨new, none⟩ ∧
      new.lines = t.lines.set i (before ++ (e.replacement ++ behind)) := by
  have hnone : l.text = before ++ [] ++ behind := by rw [hbytes, List.append_nil]
  have htakes := Line.takes_before_end (Line.lf_notMem hl) hnone hfeed hbehind
  rw [List.append_assoc] at htakes
  obtain ⟨above, below, ht, habove, hnew⟩ :=
    Line.exists_replaced hl htakes.no_feed htakes.nonempty htakes.last
  have hplace : e.offset.toNat = (above ++ before).length := by
    rw [hoffset, List.length_append, habove]
  have hcut : t = (above ++ before) ++ (behind ++ (l.ending ++ below)) := by
    rw [ht, Line.bytes, hbytes]
    simp only [List.append_assoc]
  have happly := applyAll_insert (behind ++ (l.ending ++ below)) hplace hlength
  rw [← hcut] at happly
  refine ⟨_, happly, ?_⟩
  rw [← hnew]
  simp only [List.append_assoc]

end Edit

end MojoLint
