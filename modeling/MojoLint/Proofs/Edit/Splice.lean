import Mathlib.Algebra.GroupWithZero.Nat
import Mathlib.Data.List.Chain
import MojoLint.Proofs.Edit.Selection

/-!
# Selected edits as one splice

A selection keeps edits that come one behind the other (`Ordered`). Carrying out ordered edits from
the back is the same as going through the text once from the front (`spliceFrom`,
`applyAll_eq_spliceFrom`). That form leaves alone what stands before its first edit
(`spliceFrom_skip`), and what it does to the number of bytes of any kind is a sum over the edits
(`countP_spliceFrom`).

The last edit is carried out first (`applyAll_concat`), and in ordered edits it is the one that
reaches farthest. So either all of them fit, or nothing is changed (`applyAll_atomic`).
-/

namespace MojoLint

namespace Edit

/-- Each edit ends before the later ones start. -/
def Ordered (es : List Edit) : Prop := es.Pairwise fun a b => a.stop ≤ b.offset.toNat

theorem offset_le_stop (e : Edit) : e.offset.toNat ≤ e.stop := Nat.le_add_right _ _

/-! ## What a selection keeps -/

/-- Edits are ordered when each one ends before the next one starts. -/
theorem ordered_of_isChain {es : List Edit} (h : es.IsChain fun a b => a.stop ≤ b.offset.toNat) :
    Ordered es := by
  have htrans : Trans (fun a b : Edit => a.stop ≤ b.offset.toNat)
      (fun a b : Edit => a.stop ≤ b.offset.toNat) (fun a b : Edit => a.stop ≤ b.offset.toNat) :=
    ⟨fun {_ b _} hab hbc => Nat.le_trans hab (Nat.le_trans b.offset_le_stop hbc)⟩
  exact List.isChain_iff_pairwise.1 h

/-- A selection is ordered. The words do not wrap as long as every edit ends below their size. -/
theorem select_ordered {es : List Edit} (hsize : ∀ e ∈ es, e.stop < UInt32.size) :
    Ordered (select es).edits := by
  apply ((pairwise_precedes_select es).and (select_spec hsize).1).imp
  rintro a b ⟨hab, hcompatible⟩
  exact ((compatible_iff_of_precedes hab).1 hcompatible).2

/-! ## One pass from the front -/

/-- Carries out edits from left to right on `t`, the bytes of a text from position `base` on. -/
def spliceFrom (base : Nat) (t : Text) : List Edit → Text
  | [] => t
  | e :: es =>
    t.take (e.offset.toNat - base) ++ e.replacement ++
      spliceFrom e.stop (t.drop (e.stop - base)) es

/-- Before its first edit a text stays as it is. -/
theorem spliceFrom_skip {base : Nat} {s t : Text} {es : List Edit}
    (h : ∀ e ∈ es, base + s.length ≤ e.offset.toNat) :
    spliceFrom base (s ++ t) es = s ++ spliceFrom (base + s.length) t es := by
  cases es with
  | nil => rfl
  | cons e es =>
    have hoffset := h e List.mem_cons_self
    have hstop := e.offset_le_stop
    unfold spliceFrom
    rw [List.take_append, List.take_of_length_le (show s.length ≤ _ by omega), List.drop_append,
      List.drop_eq_nil_of_le (show s.length ≤ _ by omega), List.nil_append, Nat.sub_sub,
      Nat.sub_sub, List.append_assoc, List.append_assoc, List.append_assoc]

/-- **Carrying out ordered edits from the back succeeds and is one pass from the front.** -/
theorem applyAll_eq_spliceFrom {t : Text} {es : List Edit} (ho : Ordered es)
    (hin : ∀ e ∈ es, e.stop ≤ t.length) : applyAll t es = ⟨spliceFrom 0 t es, none⟩ := by
  induction es with
  | nil => rfl
  | cons e es ih =>
    obtain ⟨hbehind, hrest⟩ := List.pairwise_cons.1 ho
    have hstop : e.stop ≤ t.length := hin e List.mem_cons_self
    have hle := e.offset_le_stop
    have hlen : (t.take e.stop).length = e.stop := by rw [List.length_take]; omega
    -- the later edits leave the bytes up to the end of this one alone
    have hkeep : spliceFrom 0 t es = t.take e.stop ++ spliceFrom e.stop (t.drop e.stop) es := by
      have hskip : ∀ a ∈ es, 0 + (t.take e.stop).length ≤ a.offset.toNat := by
        rw [hlen, Nat.zero_add]
        exact hbehind
      have := spliceFrom_skip (t := t.drop e.stop) hskip
      rwa [List.take_append_drop, hlen, Nat.zero_add] at this
    simp only [applyAll, ih hrest fun a ha => hin a (List.mem_cons_of_mem _ ha), hkeep]
    rw [if_pos (by rw [List.length_append, hlen]; omega), splice, spliceFrom,
      List.take_append_of_le_length (by omega), List.take_take, Nat.min_eq_left hle,
      List.drop_append, hlen, Nat.sub_self, List.drop_zero, List.drop_eq_nil_of_le (by omega),
      List.nil_append, Nat.sub_zero, Nat.sub_zero]

/-! ## All or nothing -/

/-- The last edit is carried out first. -/
theorem applyAll_concat (t : Text) (es : List Edit) (e : Edit) :
    applyAll t (es ++ [e]) =
      if e.stop ≤ t.length then applyAll (e.splice t) es else ⟨t, some e⟩ := by
  induction es with
  | nil => rfl
  | cons a es ih =>
    by_cases hfits : e.stop ≤ t.length
    · rw [if_pos hfits] at ih ⊢
      simp only [List.cons_append, applyAll, ih]
    · rw [if_neg hfits] at ih ⊢
      simp only [List.cons_append, applyAll, ih]

/-- Ordered edits end before the end of the last one. -/
theorem Ordered.stop_le {es : List Edit} {last : Edit} (h : Ordered (es ++ [last])) :
    ∀ e ∈ es ++ [last], e.stop ≤ last.stop := by
  intro e he
  rcases List.mem_append.1 he with he | he
  · have hnext := (List.pairwise_append.1 h).2.2 e he last List.mem_cons_self
    exact Nat.le_trans hnext last.offset_le_stop
  · rw [List.mem_singleton.1 he]

/-- The text from `p` on with the edits put in: slices of the text as it was, and between them the
replacements. -/
def interleave (t : Text) (p : Nat) : List Edit → Text
  | [] => t.drop p
  | e :: es => t.extract p e.offset.toNat ++ e.replacement ++ interleave t e.stop es

/-- One pass from the front puts together slices of the text as it was. -/
theorem spliceFrom_drop {t : Text} {p : Nat} {es : List Edit} (ho : Ordered es)
    (hp : ∀ e ∈ es, p ≤ e.offset.toNat) : spliceFrom p (t.drop p) es = interleave t p es := by
  induction es generalizing p with
  | nil => rfl
  | cons e es ih =>
    obtain ⟨hbehind, hrest⟩ := List.pairwise_cons.1 ho
    have hstop : p ≤ e.stop := Nat.le_trans (hp e List.mem_cons_self) e.offset_le_stop
    rw [spliceFrom, interleave, List.drop_drop, Nat.add_sub_cancel' hstop, ih hrest hbehind,
      List.extract_eq_take_drop]

/-- **Carrying out edits is a splice, or it changes nothing.** Edits of which each ends before the
next one starts are carried out exactly when the last one fits. Then the result interleaves slices
of the text with the replacements, and otherwise the text is as it was and the last edit is to
blame. -/
theorem applyAll_atomic {t : Text} {es : List Edit}
    (h : es.IsChain fun a b => a.stop ≤ b.offset.toNat) :
    ((applyAll t es).misfit = none ↔ ∀ e ∈ es.getLast?, e.stop ≤ t.length) ∧
      ((applyAll t es).misfit = none → (applyAll t es).text = interleave t 0 es) ∧
      ((applyAll t es).misfit ≠ none →
        (applyAll t es).text = t ∧ (applyAll t es).misfit = es.getLast?) := by
  have ho := ordered_of_isChain h
  have hsplice : (∀ e ∈ es, e.stop ≤ t.length) → applyAll t es = ⟨interleave t 0 es, none⟩ := by
    intro hin
    rw [applyAll_eq_spliceFrom ho hin, ← spliceFrom_drop ho fun _ _ => Nat.zero_le _,
      List.drop_zero]
  rcases List.eq_nil_or_concat es with rfl | ⟨init, last, rfl⟩
  · exact ⟨by simp [applyAll], fun _ => rfl, fun hne => absurd rfl hne⟩
  rw [List.concat_eq_append] at *
  rw [List.getLast?_concat]
  by_cases hfits : last.stop ≤ t.length
  · rw [hsplice fun e he => Nat.le_trans (ho.stop_le e he) hfits]
    exact ⟨by simpa using hfits, fun _ => rfl, fun hne => absurd rfl hne⟩
  · rw [applyAll_concat, if_neg hfits]
    exact ⟨by simpa using hfits, nofun, fun _ => ⟨rfl, rfl⟩⟩

/-- Edits that grow, shrink and insert, next to each other, on a text where they fit and on one that
ends too early. -/
theorem applyAll_atomic_fits_or_not :
    let es : List Edit := [⟨"f", 0, 2, "long", []⟩, ⟨"f", 2, 0, "+", []⟩, ⟨"f", 2, 3, [], []⟩]
    (es.IsChain fun a b => a.stop ≤ b.offset.toNat) ∧
      (applyAll "abcdef" es).misfit = none ∧ (applyAll "abcdef" es).text = "long+f" ∧
      (applyAll "abcd" es).misfit ≠ none ∧ (applyAll "abcd" es).text = "abcd" := by
  intro es
  have hchain : es.IsChain fun a b => a.stop ≤ b.offset.toNat := by decide
  obtain ⟨hfits, hsplice, -⟩ := applyAll_atomic (t := "abcdef") hchain
  obtain ⟨-, -, hkept⟩ := applyAll_atomic (t := "abcd") hchain
  have hgood : (applyAll "abcdef" es).misfit = none := hfits.2 (by decide)
  have hbad : (applyAll "abcd" es).misfit ≠ none := by decide
  exact ⟨hchain, hgood, (hsplice hgood).trans (by decide), hbad, (hkept hbad).1⟩

/-! ## Selections and single edits -/

/-- A selection of edits that lie within a text fits, as long as words can count its bytes. -/
theorem applyAll_select {t : Text} {es : List Edit} (hsize : t.length < UInt32.size)
    (hin : ∀ e ∈ es, e.stop ≤ t.length) :
    Ordered (select es).edits ∧
      applyAll t (select es).edits = ⟨spliceFrom 0 t (select es).edits, none⟩ := by
  have ho : Ordered (select es).edits :=
    select_ordered fun e he => Nat.lt_of_le_of_lt (hin e he) hsize
  exact ⟨ho, applyAll_eq_spliceFrom ho fun e he => hin e (mem_of_mem_select he)⟩

/-- Carrying out an edit of the bytes `old`. -/
theorem applyAll_replace {e : Edit} {before old : Text} (behind : Text)
    (hoffset : e.offset.toNat = before.length) (hlength : e.length.toNat = old.length) :
    applyAll (before ++ old ++ behind) [e] = ⟨before ++ e.replacement ++ behind, none⟩ := by
  have hstop : e.stop = (before ++ old).length := by
    rw [stop, hoffset, hlength, List.length_append]
  have hsplice : e.splice (before ++ old ++ behind) = before ++ e.replacement ++ behind := by
    rw [splice, hstop, hoffset, List.drop_left, List.append_assoc before old, List.take_left]
  rw [← hsplice]
  refine if_pos ?_
  rw [hstop]
  exact (List.prefix_append (before ++ old) behind).length_le

/-- Carrying out an edit that only inserts. -/
theorem applyAll_insert {e : Edit} {before : Text} (behind : Text)
    (hoffset : e.offset.toNat = before.length) (hlength : e.length = 0) :
    applyAll (before ++ behind) [e] = ⟨before ++ (e.replacement ++ behind), none⟩ := by
  have hnone : e.length.toNat = ([] : Text).length := by
    rw [hlength]
    rfl
  have h := applyAll_replace behind hoffset hnone
  rwa [List.append_nil, List.append_assoc] at h

/-! ## Counting bytes -/

/-- The bytes that the edit replaces in the bytes of a text from `base` on. -/
def replaced (base : Nat) (t : Text) (e : Edit) : Text :=
  (t.drop (e.offset.toNat - base)).take e.length.toNat

theorem countP_split (p : UInt8 → Bool) (t : Text) {m n : Nat} (h : m ≤ n) :
    t.countP p = (t.take m).countP p + ((t.drop m).take (n - m)).countP p +
      (t.drop n).countP p := by
  have hdrop : (t.drop m).drop (n - m) = t.drop n := by rw [List.drop_drop, Nat.add_sub_cancel' h]
  rw [← hdrop, Nat.add_assoc, ← List.countP_append, List.take_append_drop, ← List.countP_append,
    List.take_append_drop]

/-- **What ordered edits do to the number of bytes of a kind**: the replaced ones go and the new
ones come. -/
theorem countP_spliceFrom (p : UInt8 → Bool) {base : Nat} {t : Text} {es : List Edit}
    (ho : Ordered es) (hbase : ∀ e ∈ es, base ≤ e.offset.toNat) :
    (spliceFrom base t es).countP p +
        (es.map fun e => (e.replaced base t).countP p).sum =
      t.countP p + (es.map fun e => e.replacement.countP p).sum := by
  induction es generalizing base t with
  | nil => simp [spliceFrom]
  | cons e es ih =>
    obtain ⟨hbehind, hrest⟩ := List.pairwise_cons.1 ho
    have hoffset := hbase e List.mem_cons_self
    have hle := e.offset_le_stop
    have hlength : e.stop - base - (e.offset.toNat - base) = e.length.toNat := by
      unfold stop
      omega
    have hsame : es.map (fun a => (a.replaced e.stop (t.drop (e.stop - base))).countP p) =
        es.map fun a => (a.replaced base t).countP p := by
      refine List.map_congr_left fun a ha => ?_
      have := hbehind a ha
      rw [replaced, replaced, List.drop_drop,
        show e.stop - base + (a.offset.toNat - e.stop) = a.offset.toNat - base by omega]
    have hlater := @ih e.stop (t.drop (e.stop - base)) hrest hbehind
    have hcut := countP_split p t (show e.offset.toNat - base ≤ e.stop - base by omega)
    rw [hlength] at hcut
    rw [hsame] at hlater
    simp only [spliceFrom, List.countP_append, List.map_cons, List.sum_cons, replaced]
      at hlater ⊢
    omega

theorem replaced_append {before mid behind : Text} {e : Edit}
    (hoffset : e.offset.toNat = before.length) (hlength : e.length.toNat = mid.length) :
    e.replaced 0 (before ++ (mid ++ behind)) = mid := by
  rw [replaced, hoffset, hlength, Nat.sub_zero, List.drop_left, List.take_left]

theorem mem_replaced {t : Text} {e : Edit} {p : Nat} {b : UInt8} (h : t[p]? = some b)
    (hoffset : e.offset.toNat ≤ p) (hstop : p < e.stop) : b ∈ e.replaced 0 t := by
  unfold stop at hstop
  rw [replaced, Nat.sub_zero]
  refine List.mem_of_getElem? (i := p - e.offset.toNat) ?_
  rw [List.getElem?_take, if_pos (by omega), List.getElem?_drop, Nat.add_sub_cancel' hoffset, h]

end Edit

end MojoLint
