import MojoLint.Text.Basic

/-!
# Byte classes and trimmed texts

There are 256 bytes, so a fact about the classes of a single byte is settled by looking at all of
them (`Byte.all`). A text is its trimmed form and the white space that was trimmed.
-/

namespace MojoLint

namespace Byte

/-- The bytes in rows of sixteen, which keeps a decision over all of them shallow. -/
theorem all {P : UInt8 → Prop} (h : ∀ m < 16, ∀ n < 16, P (UInt8.ofNat (16 * m + n)))
    (b : UInt8) : P b := by
  have hb := b.toNat_lt
  have hrow := h (b.toNat / 16) (by omega) (b.toNat % 16) (Nat.mod_lt _ (by decide))
  rwa [Nat.div_add_mod, UInt8.ofNat_toNat] at hrow

/-- A byte that neither starts a string or a comment nor is a bracket. -/
def isPlain (b : UInt8) : Bool :=
  !(isQuote b || b == hash || b == 40 || b == 41 || b == 91 || b == 93 || b == 123 || b == 125)

theorem isPlain_of_isGap : ∀ {b : UInt8}, isGap b = true → isPlain b = true :=
  @(all (by decide))

theorem isPlain_of_isSpace : ∀ {b : UInt8}, isSpace b = true → isPlain b = true :=
  @(all (by decide))

theorem isPlain_of_isIdentPart : ∀ {b : UInt8}, isIdentPart b = true → isPlain b = true :=
  @(all (by decide))

theorem isIdentPart_of_isIdentStart : ∀ {b : UInt8}, isIdentStart b = true → isIdentPart b = true :=
  @(all (by decide))

theorem isSpace_of_isGap : ∀ {b : UInt8}, isGap b = true → isSpace b = true :=
  @(all (by decide))

end Byte

namespace Text

theorem take_length_takeWhile (p : UInt8 → Bool) (t : Text) :
    t.take (t.takeWhile p).length = t.takeWhile p :=
  (List.prefix_iff_eq_take.1 (List.takeWhile_prefix p)).symm

theorem drop_length_takeWhile (p : UInt8 → Bool) (t : Text) :
    t.drop (t.takeWhile p).length = t.dropWhile p := by
  have happend := List.take_append_drop (t.takeWhile p).length t
  rw [take_length_takeWhile] at happend
  exact List.append_cancel_left (happend.trans List.takeWhile_append_dropWhile.symm)

/-- What is trimmed from the end is white space. -/
theorem exists_trimRight_append (t : Text) :
    ∃ blank, t = trimRight t ++ blank ∧ ∀ b ∈ blank, Byte.isSpace b = true := by
  refine ⟨(t.reverse.takeWhile Byte.isSpace).reverse, ?_, ?_⟩
  · rw [trimRight, ← List.reverse_append, List.takeWhile_append_dropWhile, List.reverse_reverse]
  · intro b hb
    exact List.all_eq_true.1 List.all_takeWhile b (List.mem_reverse.1 hb)

theorem trimRight_sublist (t : Text) : List.Sublist (trimRight t) t := by
  obtain ⟨blank, hblank, -⟩ := exists_trimRight_append t
  conv => rhs; rw [hblank]
  exact List.sublist_append_left _ _

/-- A byte that is no white space stops the trimming. -/
theorem trimRight_append {c : UInt8} (hc : Byte.isSpace c = false) (s t : Text) :
    trimRight (s ++ c :: t) = s ++ c :: trimRight t := by
  unfold trimRight
  rw [List.reverse_append, List.reverse_cons, List.append_assoc, List.dropWhile_append]
  split
  · rename_i h
    rw [List.isEmpty_iff.1 h]
    simp [hc]
  · simp

/-- What is left of a text does not end in white space. -/
theorem isSpace_of_getLast?_trimRight {t : Text} :
    ∀ b ∈ (trimRight t).getLast?, Byte.isSpace b = false := by
  intro b hb
  rw [trimRight, List.getLast?_reverse] at hb
  have hhead := List.head?_dropWhile_not Byte.isSpace t.reverse
  rw [Option.mem_def.1 hb] at hhead
  simpa using hhead

theorem trimRight_eq_nil_iff (t : Text) :
    trimRight t = [] ↔ ∀ b ∈ t, Byte.isSpace b = true := by
  constructor
  · intro hnil
    obtain ⟨blank, hblank, hspace⟩ := exists_trimRight_append t
    rwa [hblank, hnil]
  · intro hspace
    rw [trimRight, ← List.append_nil t.reverse,
      List.dropWhile_append_of_pos (by simpa using hspace)]
    rfl

theorem trimRight_append_of_nil {u : Text} (h : trimRight u = []) (t : Text) :
    trimRight (t ++ u) = trimRight t := by
  rw [trimRight_eq_nil_iff] at h
  rw [trimRight, List.reverse_append, List.dropWhile_append_of_pos (by simpa using h), trimRight]

theorem trimRight_append_of_ne_nil {u : Text} (h : trimRight u ≠ []) (t : Text) :
    trimRight (t ++ u) = t ++ trimRight u := by
  have hsome : ¬ (u.reverse.dropWhile Byte.isSpace).isEmpty = true := by
    simpa [trimRight] using h
  rw [trimRight, List.reverse_append, List.dropWhile_append, if_neg hsome, List.reverse_append,
    List.reverse_reverse, trimRight]

theorem trimRight_cons_space {b : UInt8} (hb : Byte.isSpace b = true) (t : Text) :
    trimRight (b :: t) = if trimRight t = [] then [] else b :: trimRight t := by
  have hblank : trimRight [b] = [] := (trimRight_eq_nil_iff _).2 (by simpa using hb)
  rw [← List.singleton_append]
  split
  · rename_i hnil
    rw [trimRight_append_of_nil hnil, hblank]
  · rename_i hne
    rw [trimRight_append_of_ne_nil hne, List.singleton_append]

theorem trimRight_of_isSpace {blank : Text} (h : ∀ b ∈ blank, Byte.isSpace b = true) :
    trimRight blank = [] :=
  (trimRight_eq_nil_iff blank).2 h

theorem trimRight_append_blank {t blank : Text} (ht : ∀ b ∈ t.getLast?, Byte.isSpace b = false)
    (h : ∀ b ∈ blank, Byte.isSpace b = true) : trimRight (t ++ blank) = t := by
  rcases List.eq_nil_or_concat t with rfl | ⟨init, c, rfl⟩
  · rw [List.nil_append, trimRight_of_isSpace h]
  · rw [List.concat_eq_append] at ht ⊢
    rw [List.append_assoc, List.singleton_append,
      trimRight_append (ht c List.getLast?_concat), trimRight_of_isSpace h]

theorem trimRight_eq_self {t : Text} (ht : ∀ b ∈ t.getLast?, Byte.isSpace b = false) :
    trimRight t = t := by
  have htrim := trimRight_append_blank ht (List.forall_mem_nil _)
  rwa [List.append_nil] at htrim

theorem trimRight_trimRight (t : Text) : trimRight (trimRight t) = trimRight t :=
  trimRight_eq_self isSpace_of_getLast?_trimRight

theorem trimLeft_append {c : UInt8} (hc : Byte.isSpace c = false) {s : Text}
    (hs : ∀ b ∈ s, Byte.isSpace b = true) (t : Text) : trimLeft (s ++ c :: t) = c :: t := by
  rw [trimLeft, List.dropWhile_append_of_pos hs, List.dropWhile_cons_of_neg (by simp [hc])]

theorem exists_intercalate_cons (sep t : Text) (ts : List Text) :
    ∃ u, sep.intercalate (t :: ts) = t ++ u := by
  cases ts with
  | nil => exact ⟨[], by rw [List.intercalate_singleton, List.append_nil]⟩
  | cons u us =>
    exact ⟨sep ++ sep.intercalate (u :: us), by rw [List.intercalate_cons_cons, List.append_assoc]⟩

/-! ## Runs between separators -/

theorem splitOn_append {b : UInt8} {p t run : Text} {runs : List Text} (hp : b ∉ p)
    (h : t.splitOn b = run :: runs) : (p ++ t).splitOn b = (p ++ run) :: runs := by
  induction p with
  | nil => exact h
  | cons c p ih =>
    rw [List.mem_cons, not_or] at hp
    rw [List.cons_append, List.splitOn_cons_eq_if_modifyHead, ih hp.2,
      if_neg (by simpa using Ne.symm hp.1)]
    rfl

/-! ## Byte order -/

/-- A list of texts sorted in byte order, each of them once, increases strictly. -/
theorem pairwise_lt_mergeSort {ts : List Text} (h : ts.Nodup) : ts.mergeSort.Pairwise (· < ·) := by
  have hsorted : ts.mergeSort.Pairwise fun s t => decide (s ≤ t) = true := by
    apply List.pairwise_mergeSort
    · intro s t u hst htu
      rw [decide_eq_true_eq] at hst htu ⊢
      exact List.le_trans hst htu
    · intro s t
      rw [Bool.or_eq_true, decide_eq_true_eq, decide_eq_true_eq]
      exact List.le_total s t
  have hnodup : ts.mergeSort.Nodup := (List.mergeSort_perm ts _).nodup_iff.2 h
  refine hsorted.imp₂ ?_ hnodup
  intro s t hle hne
  rw [decide_eq_true_eq, List.le_iff_lt_or_eq] at hle
  exact hle.resolve_right hne

end Text

end MojoLint
