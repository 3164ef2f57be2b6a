import Mathlib.Data.List.Nodup
import MojoLint.Edit.Apply
import MojoLint.Edit.Select

/-!
# What a selection keeps

A selection compares an edit with two things only: the end of all bytes that the kept edits replace,
and the edit kept last. `Tracks` says what these two know about the kept edits, and `collides_iff`
that it is enough: an edit that comes behind the kept ones collides exactly when it is incompatible
with one of them. So what is kept can be carried out together, nothing that was skipped could have
joined it, and selecting once more changes nothing (`select_maximal`).

A selection looks at offsets and lengths alone, and sorting determines the order of those. So the
order in which edits are reported only decides between edits of the same bytes (`select_perm`).
-/

namespace MojoLint.Edit

/-! ## Edits that go together -/

/-- The edit replaces the byte at `p`. -/
def Covers (e : Edit) (p : Nat) : Prop := e.offset.toNat ≤ p ∧ p < e.stop

theorem covers_offset {e : Edit} (h : e.length ≠ 0) : e.Covers e.offset.toNat := by
  have hpos : e.length.toNat ≠ 0 := fun h' => h (UInt32.toNat_inj.1 h')
  unfold Covers stop
  omega

/-- Two edits can be carried out together. -/
structure Compatible (a b : Edit) : Prop where
  /-- They replace different bytes. -/
  disjoint : ∀ p, a.Covers p → ¬ b.Covers p
  /-- An insertion is neither within the bytes that the other edit replaces nor at their start. -/
  left_outside : a.length = 0 → ¬ b.Covers a.offset.toNat
  right_outside : b.length = 0 → ¬ a.Covers b.offset.toNat
  /-- Two insertions are at different places. -/
  apart : a.length = 0 → b.length = 0 → a.offset ≠ b.offset

theorem precedes_iff {a b : Edit} :
    precedes a b = true ↔ a.offset.toNat < b.offset.toNat ∨
      a.offset.toNat = b.offset.toNat ∧ b.length.toNat ≤ a.length.toNat := by
  unfold precedes
  split
  · rename_i h
    simp [h, UInt32.le_iff_toNat_le]
  · rename_i h
    have hne : a.offset.toNat ≠ b.offset.toNat := fun h' => h (UInt32.toNat_inj.1 h')
    simp [hne, UInt32.lt_iff_toNat_lt]

theorem precedes_refl (a : Edit) : precedes a a = true :=
  precedes_iff.2 (.inr ⟨rfl, Nat.le_refl _⟩)

theorem precedes_trans (a b c : Edit) (hab : precedes a b = true) (hbc : precedes b c = true) :
    precedes a c = true := by
  rw [precedes_iff] at hab hbc ⊢
  omega

theorem precedes_total (a b : Edit) : (precedes a b || precedes b a) = true := by
  rw [Bool.or_eq_true, precedes_iff, precedes_iff]
  omega

/-- Of two edits in order, the second one is compatible with the first when it starts behind the
start of the first and not before its end. -/
theorem compatible_iff_of_precedes {a b : Edit} (h : precedes a b = true) :
    Compatible a b ↔ a.offset ≠ b.offset ∧ a.stop ≤ b.offset.toNat := by
  rw [precedes_iff] at h
  constructor
  · intro hc
    -- the first byte of `b`, or the place where it inserts, is not one that `a` replaces
    have hfree : ¬ a.Covers b.offset.toNat := by
      by_cases hb : b.length = 0
      · exact hc.right_outside hb
      · exact fun ha => hc.disjoint _ ha (covers_offset hb)
    have hne : a.offset ≠ b.offset := by
      intro heq
      have ha : a.length = 0 := by
        by_contra ha
        exact hfree (heq ▸ covers_offset ha)
      have hb : b.length = 0 := by
        rw [heq, ha] at h
        exact UInt32.toNat_inj.1 (by simpa using h)
      exact hc.apart ha hb heq
    refine ⟨hne, ?_⟩
    unfold Covers at hfree
    omega
  · rintro ⟨hne, hstop⟩
    have hlt : a.offset.toNat < b.offset.toNat := by
      have : a.offset.toNat ≠ b.offset.toNat := fun h' => hne (UInt32.toNat_inj.1 h')
      omega
    refine ⟨?_, ?_, ?_, fun _ _ => hne⟩
    · rintro p ⟨-, ha⟩ ⟨hb, -⟩
      omega
    · rintro - ⟨hb, -⟩
      omega
    · rintro - ⟨-, ha⟩
      omega

/-- Edits that are incompatible although the first ends before the second starts insert at one
place, and so does every edit between them. -/
theorem inserts_of_between {k l e : Edit} (hkl : precedes k l = true) (hle : precedes l e = true)
    (hstop : k.stop ≤ e.offset.toNat) (hc : ¬ Compatible k e) :
    (e.offset = l.offset ∧ e.length = 0) ∧ l.length = 0 := by
  have hke := precedes_trans k l e hkl hle
  rw [compatible_iff_of_precedes hke] at hc
  rw [precedes_iff] at hkl hle hke
  have heq : k.offset.toNat = e.offset.toNat := by
    by_contra hne
    exact hc ⟨fun h => hne (congrArg UInt32.toNat h), hstop⟩
  unfold stop at hstop
  have hoffset : e.offset.toNat = l.offset.toNat := by omega
  have he : e.length.toNat = 0 := by omega
  have hl : l.length.toNat = 0 := by omega
  exact ⟨⟨UInt32.toNat_inj.1 hoffset, UInt32.toNat_inj.1 he⟩, UInt32.toNat_inj.1 hl⟩

/-! ## What the two remembered values know -/

/-- `covered` is the end of the bytes that the edits of `kept` replace, and `last` is the last of
these edits. -/
structure Tracks (kept : List Edit) (covered : UInt32) (last : Option Edit) : Prop where
  last_eq : last = kept.getLast?
  bound : ∀ k ∈ kept, k.stop ≤ covered.toNat
  reached : ∀ p, p < covered.toNat → ∃ k ∈ kept, p < k.stop

theorem toNat_max_end {covered : UInt32} {e : Edit} (h : e.stop < UInt32.size) :
    (max covered (e.offset + e.length)).toNat = max covered.toNat e.stop := by
  have hend : (e.offset + e.length).toNat = e.stop := by
    rw [UInt32.toNat_add]
    exact Nat.mod_eq_of_lt h
  show (if covered ≤ e.offset + e.length then e.offset + e.length else covered).toNat = _
  split
  · rename_i hle
    rw [UInt32.le_iff_toNat_le, hend] at hle
    rw [hend, Nat.max_eq_right hle]
  · rename_i hlt
    rw [UInt32.le_iff_toNat_le, hend] at hlt
    rw [Nat.max_eq_left (Nat.le_of_not_le hlt)]

section Tracking

variable {kept es : List Edit} {covered : UInt32} {last : Option Edit} {e : Edit}

theorem tracks_nil : Tracks [] 0 none :=
  ⟨rfl, List.forall_mem_nil _, fun _ hp => absurd hp (Nat.not_lt_zero _)⟩

theorem Tracks.keep (h : Tracks kept covered last) (hsize : e.stop < UInt32.size) :
    Tracks (kept ++ [e]) (max covered (e.offset + e.length)) (some e) := by
  have hmax : (max covered (e.offset + e.length)).toNat = max covered.toNat e.stop :=
    toNat_max_end hsize
  refine ⟨List.getLast?_concat.symm, ?_, ?_⟩
  · intro k hk
    rw [hmax]
    rcases List.mem_append.1 hk with hk | hk
    · exact Nat.le_trans (h.bound k hk) (Nat.le_max_left _ _)
    · rw [List.mem_singleton.1 hk]
      exact Nat.le_max_right _ _
  · intro p hp
    rw [hmax] at hp
    rcases Nat.lt_or_ge p covered.toNat with hp' | hp'
    · obtain ⟨k, hk, hpk⟩ := h.reached p hp'
      exact ⟨k, List.mem_append_left _ hk, hpk⟩
    · exact ⟨e, List.mem_append_right _ List.mem_cons_self, by omega⟩

/-- **The two remembered values are enough**: an edit behind the kept ones collides exactly when one
of them is incompatible with it. -/
theorem collides_iff (h : Tracks kept covered last)
    (hsorted : (kept ++ [e]).Pairwise fun a b => precedes a b = true) :
    collides covered last e = true ↔ ∃ k ∈ kept, ¬ Compatible k e := by
  obtain ⟨hkept, -, hbefore⟩ := List.pairwise_append.1 hsorted
  have hbefore : ∀ k ∈ kept, precedes k e = true := fun k hk =>
    hbefore k hk e List.mem_cons_self
  rw [h.last_eq]
  rcases List.eq_nil_or_concat kept with rfl | ⟨init, l, rfl⟩
  · simp [collides]
  rw [List.concat_eq_append] at *
  simp only [List.getLast?_concat, collides, Bool.or_eq_true, Bool.and_eq_true, decide_eq_true_eq,
    beq_iff_eq]
  constructor
  · rintro (hlt | ⟨⟨heq, he⟩, hl⟩)
    · obtain ⟨k, hk, hp⟩ := h.reached _ (UInt32.lt_iff_toNat_lt.1 hlt)
      refine ⟨k, hk, fun hc => ?_⟩
      exact Nat.not_le_of_lt hp ((compatible_iff_of_precedes (hbefore k hk)).1 hc).2
    · exact ⟨l, List.mem_append_right _ List.mem_cons_self, fun hc => hc.apart hl he heq.symm⟩
  · rintro ⟨k, hk, hc⟩
    by_cases hlt : e.offset < covered
    · exact .inl hlt
    -- nothing covers the start of `e`, so `k` and `e` insert at one place, and `l` is between them
    have hkl : precedes k l = true := by
      rcases List.mem_append.1 hk with hk | hk
      · exact (List.pairwise_append.1 hkept).2.2 k hk l List.mem_cons_self
      · rw [List.mem_singleton.1 hk]
        exact precedes_refl l
    have hle := hbefore l (List.mem_append_right _ List.mem_cons_self)
    have hstop := h.bound k hk
    rw [UInt32.lt_iff_toNat_lt] at hlt
    exact .inr (inserts_of_between hkl hle (by omega) hc)

/-! ## One pass -/

theorem selectFrom_sublist (covered : UInt32) (last : Option Edit) (es : List Edit) :
    List.Sublist (selectFrom covered last es).edits es := by
  induction es generalizing covered last with
  | nil => exact .slnil
  | cons e es ih =>
    unfold selectFrom
    split
    · exact (ih _ _).cons e
    · exact (ih _ _).cons_cons e

/-- What the pass keeps is compatible, also with what was kept before, and what it drops is not
compatible with all of that. -/
theorem selectFrom_spec (h : Tracks kept covered last)
    (hsorted : (kept ++ es).Pairwise fun a b => precedes a b = true)
    (hsize : ∀ e ∈ es, e.stop < UInt32.size) (hkept : kept.Pairwise Compatible) :
    (kept ++ (selectFrom covered last es).edits).Pairwise Compatible ∧
      ∃ dropped, ((selectFrom covered last es).edits ++ dropped).Perm es ∧
        ∀ d ∈ dropped, ∃ k ∈ kept ++ (selectFrom covered last es).edits, ¬ Compatible k d := by
  induction es generalizing kept covered last with
  | nil => exact ⟨by simpa [selectFrom] using hkept, [], .refl _, List.forall_mem_nil _⟩
  | cons e es ih =>
    have hsize' : ∀ a ∈ es, a.stop < UInt32.size := fun a ha => hsize a (List.mem_cons_of_mem _ ha)
    rw [List.append_cons] at hsorted
    have hcollides := collides_iff h (List.pairwise_append.1 hsorted).1
    unfold selectFrom
    split
    · rename_i hc
      have hrest := hsorted.sublist ((List.sublist_append_left kept [e]).append_right es)
      obtain ⟨hpairs, dropped, hperm, hdropped⟩ := ih h hrest hsize' hkept
      obtain ⟨k, hk, hke⟩ := hcollides.1 hc
      refine ⟨hpairs, e :: dropped, List.perm_middle.trans (hperm.cons e), ?_⟩
      intro d hd
      rcases List.mem_cons.1 hd with rfl | hd
      · exact ⟨k, List.mem_append_left _ hk, hke⟩
      · exact hdropped d hd
    · rename_i hc
      have hjoins : (kept ++ [e]).Pairwise Compatible := by
        refine List.pairwise_append.2 ⟨hkept, List.pairwise_singleton _ _, ?_⟩
        intro k hk a ha
        rw [List.mem_singleton.1 ha]
        by_contra hke
        exact hc (hcollides.2 ⟨k, hk, hke⟩)
      obtain ⟨hpairs, dropped, hperm, hdropped⟩ :=
        ih (h.keep (hsize e List.mem_cons_self)) hsorted hsize' hjoins
      rw [List.append_assoc] at hpairs hdropped
      exact ⟨hpairs, dropped, hperm.cons e, hdropped⟩

theorem selectFrom_of_compatible (h : Tracks kept covered last)
    (hsorted : (kept ++ es).Pairwise fun a b => precedes a b = true)
    (hsize : ∀ e ∈ es, e.stop < UInt32.size) (hpairs : (kept ++ es).Pairwise Compatible) :
    selectFrom covered last es = ⟨es, 0⟩ := by
  induction es generalizing kept covered last with
  | nil => rfl
  | cons e es ih =>
    rw [List.append_cons] at hsorted hpairs
    have hfree : ¬ collides covered last e = true := by
      rw [collides_iff h (List.pairwise_append.1 hsorted).1]
      rintro ⟨k, hk, hke⟩
      exact hke ((List.pairwise_append.1 (List.pairwise_append.1 hpairs).1).2.2 k hk e
        List.mem_cons_self)
    unfold selectFrom
    rw [if_neg hfree]
    simp only [ih (h.keep (hsize e List.mem_cons_self)) hsorted
      (fun a ha => hsize a (List.mem_cons_of_mem _ ha)) hpairs]

end Tracking

/-! ## The selection -/

theorem mem_of_mem_select {es : List Edit} {e : Edit} (h : e ∈ (select es).edits) : e ∈ es :=
  List.mem_mergeSort.1 ((selectFrom_sublist _ _ _).mem h)

theorem pairwise_precedes_mergeSort (es : List Edit) :
    (es.mergeSort precedes).Pairwise fun a b => precedes a b = true :=
  List.pairwise_mergeSort precedes_trans precedes_total es

theorem pairwise_precedes_select (es : List Edit) :
    (select es).edits.Pairwise fun a b => precedes a b = true :=
  (pairwise_precedes_mergeSort es).sublist (selectFrom_sublist _ _ _)

/-- A selection from `es` that is sound and cannot be extended. -/
structure Selection.IsMaximal (s : Selection) (es : List Edit) : Prop where
  sorted : s.edits.Pairwise fun a b => a.offset ≤ b.offset
  compatible : s.edits.Pairwise Compatible
  count : s.edits.length + s.skipped = es.length
  /-- The edits are those kept and those skipped, and none of the skipped ones could have joined. -/
  maximal : ∃ dropped, (s.edits ++ dropped).Perm es ∧ dropped.length = s.skipped ∧
    ∀ d ∈ dropped, ∃ k ∈ s.edits, ¬ Compatible k d

theorem select_spec {es : List Edit} (hsize : ∀ e ∈ es, e.stop < UInt32.size) :
    (select es).edits.Pairwise Compatible ∧ ∃ dropped, ((select es).edits ++ dropped).Perm es ∧
      ∀ d ∈ dropped, ∃ k ∈ (select es).edits, ¬ Compatible k d := by
  obtain ⟨hpairs, dropped, hperm, hdropped⟩ := selectFrom_spec tracks_nil
    (pairwise_precedes_mergeSort es) (fun e he => hsize e (List.mem_mergeSort.1 he)) .nil
  exact ⟨hpairs, dropped, hperm.trans (List.mergeSort_perm es precedes), hdropped⟩

/-- **A selection is sound and maximal**, and a selection from what was selected keeps all of it. -/
theorem select_maximal {es : List Edit} (hsize : ∀ e ∈ es, e.stop < UInt32.size) :
    (select es).IsMaximal es ∧ select (select es).edits = ⟨(select es).edits, 0⟩ := by
  obtain ⟨hpairs, dropped, hperm, hdropped⟩ := select_spec hsize
  have hprecedes := pairwise_precedes_select es
  refine ⟨⟨?_, hpairs, length_select es, dropped, hperm, ?_, hdropped⟩, ?_⟩
  · apply hprecedes.imp
    intro a b hab
    rw [precedes_iff] at hab
    rw [UInt32.le_iff_toNat_le]
    omega
  · have hlength := hperm.length_eq
    rw [List.length_append, ← length_select es] at hlength
    omega
  · rw [select, List.mergeSort_of_pairwise hprecedes]
    exact selectFrom_of_compatible tracks_nil hprecedes
      (fun e he => hsize e (mem_of_mem_select he)) hpairs

/-- Four bytes are replaced. The insertions at their start and within them are skipped, and of two
insertions at their end one is kept. -/
theorem select_maximal_of_overlaps :
    let edit (offset length : UInt32) : Edit := ⟨"f", offset, length, "x", []⟩
    let es := [edit 0 4, edit 0 0, edit 2 0, edit 4 0, edit 4 0, edit 6 1]
    (∀ e ∈ es, e.stop < UInt32.size) ∧ (select es).IsMaximal es ∧
      select es = ⟨[edit 0 4, edit 4 0, edit 6 1], 3⟩ := by
  intro edit es
  have hsize : ∀ e ∈ es, e.stop < UInt32.size := by decide
  refine ⟨hsize, (select_maximal hsize).1, ?_⟩
  rw [select, List.mergeSort_of_pairwise (by decide)]
  decide

/-! ## The order of reports -/

/-- What a selection looks at. -/
def span (e : Edit) : UInt32 × UInt32 := (e.offset, e.length)

theorem span_eq_iff {a b : Edit} : span a = span b ↔ a.offset = b.offset ∧ a.length = b.length :=
  Prod.ext_iff

theorem collides_congr {covered : UInt32} {l l' : Option Edit} {e e' : Edit}
    (hl : l.map span = l'.map span) (he : span e = span e') :
    collides covered l e = collides covered l' e' := by
  obtain ⟨hoffset, hlength⟩ := span_eq_iff.1 he
  cases l with
  | none =>
    cases l' with
    | none => rfl
    | some l' => cases hl
  | some l =>
    cases l' with
    | none => cases hl
    | some l' =>
      obtain ⟨hoffset', hlength'⟩ := span_eq_iff.1 (Option.some.inj hl)
      simp only [collides, hoffset, hlength, hoffset', hlength']

/-- Edits of the same bytes, one by one, are kept or skipped alike. -/
theorem map_span_selectFrom {covered : UInt32} {l l' : Option Edit} {es es' : List Edit}
    (hl : l.map span = l'.map span) (hes : es.map span = es'.map span) :
    (selectFrom covered l es).edits.map span = (selectFrom covered l' es').edits.map span ∧
      (selectFrom covered l es).skipped = (selectFrom covered l' es').skipped := by
  induction es generalizing covered l l' es' with
  | nil =>
    cases es' with
    | nil => exact ⟨rfl, rfl⟩
    | cons e' es' => cases hes
  | cons e es ih =>
    cases es' with
    | nil => cases hes
    | cons e' es' =>
      obtain ⟨he, hrest⟩ := List.cons.inj hes
      obtain ⟨hoffset, hlength⟩ := span_eq_iff.1 he
      unfold selectFrom
      rw [← collides_congr hl he]
      split
      · obtain ⟨hedits, hskipped⟩ := @ih covered l l' es' hl hrest
        exact ⟨hedits, congrArg (· + 1) hskipped⟩
      · obtain ⟨hedits, hskipped⟩ := @ih (max covered (e.offset + e.length)) (some e) (some e') es'
          (congrArg some he) hrest
        rw [hoffset, hlength] at hedits hskipped ⊢
        refine ⟨?_, hskipped⟩
        rw [List.map_cons, List.map_cons, he, hedits]

/-- The order of the selection, read off what it looks at. -/
def SpanLE (p q : UInt32 × UInt32) : Prop :=
  p.1.toNat < q.1.toNat ∨ p.1.toNat = q.1.toNat ∧ q.2.toNat ≤ p.2.toNat

/-- Different spans are never tied. -/
theorem SpanLE.antisymm {p q : UInt32 × UInt32} (hpq : SpanLE p q) (hqp : SpanLE q p) : p = q := by
  unfold SpanLE at hpq hqp
  have hoffset : p.1.toNat = q.1.toNat := by omega
  have hlength : p.2.toNat = q.2.toNat := by omega
  exact Prod.ext (UInt32.toNat_inj.1 hoffset) (UInt32.toNat_inj.1 hlength)

theorem pairwise_map_span_mergeSort (es : List Edit) :
    ((es.mergeSort precedes).map span).Pairwise SpanLE := by
  rw [List.pairwise_map]
  exact (pairwise_precedes_mergeSort es).imp precedes_iff.1

/-- Sorting determines which bytes come in which order. -/
theorem map_span_mergeSort {es es' : List Edit} (h : es.Perm es') :
    (es.mergeSort precedes).map span = (es'.mergeSort precedes).map span := by
  refine List.Perm.eq_of_pairwise (fun _ _ _ _ => SpanLE.antisymm)
    (pairwise_map_span_mergeSort es) (pairwise_map_span_mergeSort es') ?_
  apply List.Perm.map
  exact (List.mergeSort_perm es _).trans (h.trans (List.mergeSort_perm es' _).symm)

theorem eq_of_map_span {es xs ys : List Edit} (hes : (es.map span).Nodup) (hxs : ∀ e ∈ xs, e ∈ es)
    (hys : ∀ e ∈ ys, e ∈ es) (h : xs.map span = ys.map span) : xs = ys := by
  induction xs generalizing ys with
  | nil => exact (List.map_eq_nil_iff.1 h.symm).symm
  | cons x xs ih =>
    cases ys with
    | nil => cases h
    | cons y ys =>
      obtain ⟨hx, hxs'⟩ := List.forall_mem_cons.1 hxs
      obtain ⟨hy, hys'⟩ := List.forall_mem_cons.1 hys
      obtain ⟨hspan, hrest⟩ := List.cons.inj h
      rw [List.inj_on_of_nodup_map hes hx hy hspan, ih hxs' hys' hrest]

/-- **The order of reports decides only between edits of the same bytes.** From a list in another
order the same bytes are selected in the same order and as many edits are skipped, and the same
edits are selected where no two of them have the same bytes. -/
theorem select_perm {es es' : List Edit} (h : es.Perm es') :
    (select es').edits.map span = (select es).edits.map span ∧
      (select es').skipped = (select es).skipped ∧
      ((es.map span).Nodup → select es' = select es) := by
  obtain ⟨hspans, hskipped⟩ := @map_span_selectFrom 0 none none _ _ rfl (map_span_mergeSort h.symm)
  refine ⟨hspans, hskipped, fun hdistinct => ?_⟩
  have hedits := eq_of_map_span hdistinct (fun e he => h.mem_iff.2 (mem_of_mem_select he))
    (fun e he => mem_of_mem_select he) hspans
  exact congrArg₂ Selection.mk hedits hskipped

/-- The replacement of four bytes wins over the edits at its start and within it, also when it is
reported last. -/
theorem select_perm_reversed :
    let edit (offset length : UInt32) : Edit := ⟨"f", offset, length, "x", []⟩
    let es := [edit 0 4, edit 0 0, edit 2 1, edit 4 0]
    es.Perm es.reverse ∧ (es.map span).Nodup ∧ select es.reverse = ⟨[edit 0 4, edit 4 0], 2⟩ := by
  intro edit es
  have hperm : es.Perm es.reverse := (List.reverse_perm es).symm
  have hdistinct : (es.map span).Nodup := by decide
  refine ⟨hperm, hdistinct, ?_⟩
  rw [(select_perm hperm).2.2 hdistinct, select, List.mergeSort_of_pairwise (by decide)]
  decide

/-- Of two edits of the same bytes the one that is reported first is kept. -/
example :
    let a : Edit := ⟨"f", 0, 3, "var", []⟩
    let b : Edit := ⟨"f", 0, 3, "alias", []⟩
    select [a, b] = ⟨[a], 1⟩ ∧ select [b, a] = ⟨[b], 1⟩ := by
  intro a b
  constructor
  · rw [select, List.mergeSort_of_pairwise (by decide)]
    decide
  · rw [select, List.mergeSort_of_pairwise (by decide)]
    decide

end MojoLint.Edit
