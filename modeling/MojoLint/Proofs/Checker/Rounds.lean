import Mathlib.Algebra.Order.BigOperators.Group.List
import Mathlib.Algebra.Order.Group.Nat
import MojoLint.Proofs.Rule.Edits

/-!
# Repeated fixing

A round checks a text and carries out what is selected from the edits of all findings. Rounds come
to an end because of what their edits do to the bytes of the text:

* the removal of a trivial method takes away an assignment, and no edit ever adds an equals sign;
* a stub, a declared trait and a rewritten binding each bring in a letter that no edit but a removal
  takes away, and a text below the size of a word has room for only so many of them;
* the edits that are left, the dots of imports, make the text shorter.

So the equals signs, the room for that letter and the length go down in lexicographic order.
-/

namespace MojoLint.Checker

open Rule

/-! ## Rounds -/

/-- The edits that a round carries out. -/
def selected (o : Options) (path text : Text) : List Edit :=
  (Edit.select ((check o path text).findings.flatMap Finding.edits)).edits

/-- The text after one round. -/
def round (o : Options) (path text : Text) : Text :=
  (Edit.applyAll text (selected o path text)).text

/-- The text after `n` rounds. -/
def rounds (o : Options) (path text : Text) : Nat → Text
  | 0 => text
  | n + 1 => round o path (rounds o path text n)

/-- A letter of every stub, of every declared trait and of the mark on a rewritten binding. -/
abbrev tally : UInt8 := 98

/-! ## What an edit does to the bytes -/

/-- What a line holds is what the edit of that line replaces. -/
theorem replaced_of_line {t : Text} {i : Nat} {l : Line} {before mid behind : Text} {e : Edit}
    (hl : (Line.split t)[i]? = some l) (hbytes : l.text = before ++ mid ++ behind)
    (hoffset : e.offset.toNat = Line.offsetAt (Line.split t) i + before.length)
    (hlength : e.length.toNat = mid.length) : e.replaced 0 t = mid := by
  obtain ⟨above, below, hcut⟩ := Line.exists_cut hl
  obtain ⟨ht, hstart, -⟩ := hcut.around hbytes hoffset hlength
  rw [ht, ← List.append_assoc]
  exact Edit.replaced_append (by rw [hstart, List.length_append]) hlength

theorem replaced_of_length_eq_zero {t : Text} {e : Edit} (h : e.length = 0) :
    e.replaced 0 t = [] := by
  rw [Edit.replaced, h]
  rfl

/-- What it can mean for the counted bytes that `old` is replaced by `new`. -/
inductive Exchange (old new : Text) : Prop
  /-- An assignment is deleted. -/
  | removes (assignment : Byte.equals ∈ old) (gone : new = [])
  /-- Text is put in, or put in place of other text. -/
  | brings (signs : new.count Byte.equals ≤ old.count Byte.equals)
      (letters : old.count tally < new.count tally)
  /-- Bytes that are not counted are deleted. -/
  | drops (letters : tally ∉ old) (nonempty : old ≠ []) (gone : new = [])

theorem exchange_of_dropsDots {t : Text} {e : Edit} (h : DropsDots t e) :
    Exchange (e.replaced 0 t) e.replacement := by
  have htally : ∀ {b}, (Byte.isGap b = true ∨ b = Byte.dot) → b ≠ tally :=
    @(Byte.all (by decide))
  obtain ⟨i, l, before, dots, behind, hl, hbytes, -, hdots, hne, -, hoffset, hlength, hrep⟩ := h
  rw [replaced_of_line hl hbytes hoffset hlength]
  exact .drops (fun hmem => htally (hdots _ hmem) rfl) hne hrep

theorem exchange_of_rebinds {t : Text} {e : Edit} (h : Rebinds t e) :
    Exchange (e.replaced 0 t) e.replacement := by
  obtain ⟨i, l, before, rest, hl, hbytes, -, hoffset, hlength, hrep⟩ := h
  obtain ⟨blank, hrest, hblank⟩ := Text.exists_trimRight_append rest
  have hspace : ∀ {b}, Byte.isSpace b = true → b ≠ tally := @(Byte.all (by decide))
  have hletters : blank.count tally = 0 :=
    List.count_eq_zero.2 fun hmem => hspace (hblank _ hmem) rfl
  have hcount : ∀ b, rest.count b = (Text.trimRight rest).count b + blank.count b := by
    intro b
    rw [← List.count_append, ← hrest]
  have hlet : (Text.ofString "let").count tally = 0 ∧ (Text.ofString "var").count tally = 0 ∧
      (Text.ofString "var").count Byte.equals = 0 ∧ Variables.marker.count tally = 1 ∧
      Variables.marker.count Byte.equals = 0 := by decide
  obtain ⟨hlet, hvar, hvar', hmark, hmark'⟩ := hlet
  have hline : l.text = before ++ (Text.ofString "let" ++ rest) ++ [] := by
    rw [hbytes, List.append_nil, List.append_assoc]
  rw [replaced_of_line hl hline hoffset (by rw [hlength, List.length_append]; rfl), hrep]
  refine .brings ?_ ?_
  · simp only [List.count_append, hvar', hmark', hcount Byte.equals]
    omega
  · simp only [List.count_append, hlet, hvar, hmark, hcount tally, hletters]
    omega

theorem exchange_of_documents {t : Text} {e : Edit} (h : Documents t e) :
    Exchange (e.replaced 0 t) e.replacement := by
  have hprose : ∀ {b}, Docstring.isProse b = true → b ≠ Byte.equals :=
    @(Byte.all (by decide))
  obtain ⟨j, lead, doc, -, -, -, hlength, hrep, hstub, hlead⟩ := h
  obtain ⟨pad, prose, hdoc, hpad, hbytes, htally⟩ := hstub.exists_prose
  rw [replaced_of_length_eq_zero hlength]
  refine .brings (Nat.le_of_eq (List.count_eq_zero.2 ?_)) (List.count_pos_iff.2 ?_)
  · rw [hrep, hdoc, hlead]
    intro hmem
    simp only [List.mem_append] at hmem
    rcases hmem with hmem | hmem | hmem | hmem | hmem | hmem
    · split at hmem <;> revert hmem <;> decide
    · cases hpad _ hmem
    · revert hmem
      decide
    · exact hprose (hbytes _ hmem) rfl
    · revert hmem
      decide
    · revert hmem
      decide
  · rw [hrep, hdoc]
    simp only [List.mem_append, htally, true_or, or_true]

theorem exchange_of_declares {t : Text} {e : Edit} (h : Traits.Declares t e) :
    Exchange (e.replaced 0 t) e.replacement := by
  obtain ⟨i, c, l, traits, before, after, -, -, -, hlength, htraits, haround, hrep⟩ := h
  have hcount : ∀ traits ∈ Traits.declarable, ∀ around ∈
      ([([], []), (", ", []), ("(", ")")] : List (Text × Text)),
      (around.1 ++ traits ++ around.2).count Byte.equals = 0 ∧
        0 < (around.1 ++ traits ++ around.2).count tally := by decide
  obtain ⟨hsigns, hletters⟩ := hcount traits htraits (before, after) haround
  rw [replaced_of_length_eq_zero hlength, hrep]
  exact .brings (Nat.le_of_eq hsigns) hletters

theorem exchange_of_removes {t : Text} {e : Edit} (h : Traits.Removes t e) :
    Exchange (e.replaced 0 t) e.replacement := by
  obtain ⟨first, k, stop, line, hfirst, hstop, -, hline, hequals, hoffset, hend, hrep⟩ := h
  obtain ⟨l, hl, rfl⟩ : ∃ l, (Line.split t)[k]? = some l ∧ l.text = line := by
    simpa [Text.lines] using hline
  obtain ⟨above, below, hcut⟩ := Line.exists_cut hl
  have habove := hcut.length_above
  obtain ⟨j, hj⟩ := List.mem_iff_getElem?.1 hequals
  have hlt : j < l.text.length := (List.getElem?_eq_some_iff.1 hj).1
  have hstart := Line.offsetAt_mono (Line.split t) hfirst
  have hafter := Line.offsetAt_mono (Line.split t) (Nat.succ_le_of_lt hstop)
  rw [Line.offsetAt_succ hl, Line.size] at hafter
  have hget : t[above.length + j]? = some Byte.equals := by
    rw [hcut.bytes_eq, List.getElem?_append_right (Nat.le_add_right _ _), Nat.add_sub_cancel_left,
      Line.bytes, List.append_assoc, List.getElem?_append_left hlt, hj]
  refine .removes (Edit.mem_replaced hget ?_ ?_) hrep
  · rw [hoffset, habove]
    omega
  · rw [Edit.stop, hend, habove]
    omega

theorem exchange_of_amends {t id : Text} {e : Edit} (h : Amends t id e) :
    Exchange (e.replaced 0 t) e.replacement := by
  cases h with
  | dots _ h => exact exchange_of_dropsDots h
  | binding _ h => exact exchange_of_rebinds h
  | stub _ h => exact exchange_of_documents h
  | traits _ h => exact exchange_of_declares h
  | removal _ h => exact exchange_of_removes h

theorem Exchange.count_equals_le {old new : Text} (h : Exchange old new) :
    new.count Byte.equals ≤ old.count Byte.equals := by
  cases h with
  | removes _ gone =>
    rw [gone]
    exact Nat.zero_le _
  | brings signs _ => exact signs
  | drops _ _ gone =>
    rw [gone]
    exact Nat.zero_le _

/-! ## One round -/

section

variable {o : Options} {path t : Text}

theorem amends_of_mem_selected (hsize : t.length < UInt32.size) {e : Edit}
    (h : e ∈ selected o path t) : ∃ id, Amends t id e := by
  obtain ⟨f, hf, he⟩ := List.mem_flatMap.1 (Edit.mem_of_mem_select h)
  exact ⟨f.id, (edit_cases_of_check hsize hf he).2⟩

/-- A round is a splice of ordered edits. -/
theorem round_eq_spliceFrom (o : Options) (path : Text) (hsize : t.length < UInt32.size) :
    Edit.Ordered (selected o path t) ∧
      round o path t = Edit.spliceFrom 0 t (selected o path t) := by
  have hin : ∀ e ∈ (check o path t).findings.flatMap Finding.edits, e.stop ≤ t.length :=
    fun e he => stop_le_of_mem_edits hsize he
  obtain ⟨hordered, happly⟩ := Edit.applyAll_select hsize hin
  exact ⟨hordered, congrArg Edit.Applied.text happly⟩

/-- What a round does to the number of bytes of a kind. -/
theorem countP_round (o : Options) (path : Text) (p : UInt8 → Bool)
    (hsize : t.length < UInt32.size) :
    (round o path t).countP p +
        ((selected o path t).map fun e => (e.replaced 0 t).countP p).sum =
      t.countP p + ((selected o path t).map fun e => e.replacement.countP p).sum := by
  obtain ⟨hordered, hround⟩ := round_eq_spliceFrom o path hsize
  rw [hround]
  exact Edit.countP_spliceFrom p hordered fun _ _ => Nat.zero_le _

/-- The equals signs of a text, the room that it leaves for the counted letter, and its length. -/
def weight (t : Text) : Nat × Nat × Nat :=
  (t.count Byte.equals, UInt32.size - t.count tally, t.length)

/-- Lexicographic order. -/
abbrev Lighter : Nat × Nat × Nat → Nat × Nat × Nat → Prop :=
  Prod.Lex (· < ·) (Prod.Lex (· < ·) (· < ·))

theorem lex_of_le {β : Type} {r : β → β → Prop} {a a' : Nat} {x x' : β} (ha : a' ≤ a)
    (hx : r x' x) : Prod.Lex (· < ·) r (a', x') (a, x) := by
  rcases Nat.lt_or_eq_of_le ha with hlt | rfl
  · exact .left _ _ hlt
  · exact .right _ hx

/-- **A round with anything to do makes the text lighter.** -/
theorem lighter_round (hsize : t.length < UInt32.size)
    (hnew : (round o path t).length < UInt32.size) (hne : selected o path t ≠ []) :
    Lighter (weight (round o path t)) (weight t) := by
  have hexchange : ∀ e ∈ selected o path t, Exchange (e.replaced 0 t) e.replacement := by
    intro e he
    obtain ⟨id, h⟩ := amends_of_mem_selected hsize he
    exact exchange_of_amends h
  have hsigns := countP_round o path (· == Byte.equals) hsize
  have hletters := countP_round o path (· == tally) hsize
  have hlength := countP_round o path (fun _ => true) hsize
  simp only [← List.count_eq_countP, List.countP_true] at hsigns hletters hlength
  have hle : ∀ e ∈ selected o path t,
      e.replacement.count Byte.equals ≤ (e.replaced 0 t).count Byte.equals :=
    fun e he => (hexchange e he).count_equals_le
  by_cases hremoves : ∃ e ∈ selected o path t, Byte.equals ∈ e.replaced 0 t ∧ e.replacement = []
  · -- an equals sign is gone
    obtain ⟨e, he, hmem, hgone⟩ := hremoves
    have hlt : e.replacement.count Byte.equals < (e.replaced 0 t).count Byte.equals := by
      rw [hgone]
      exact List.count_pos_iff.2 hmem
    have := List.sum_lt_sum _ _ hle ⟨e, he, hlt⟩
    exact .left _ _ (by omega)
  · have hkinds : ∀ e ∈ selected o path t,
        (e.replaced 0 t).count tally < e.replacement.count tally ∨
          (e.replaced 0 t).count tally = 0 ∧ e.replaced 0 t ≠ [] ∧ e.replacement = [] := by
      intro e he
      cases hexchange e he with
      | removes hmem hgone => exact absurd ⟨e, he, hmem, hgone⟩ hremoves
      | brings _ hmore => exact .inl hmore
      | drops hnone hold hgone => exact .inr ⟨List.count_eq_zero.2 hnone, hold, hgone⟩
    have hmore : ∀ e ∈ selected o path t,
        (e.replaced 0 t).count tally ≤ e.replacement.count tally := by
      intro e he
      rcases hkinds e he with h | ⟨h, -⟩ <;> omega
    have hroom : (round o path t).count tally ≤ (round o path t).length := List.count_le_length
    have hsame := List.sum_le_sum hle
    refine lex_of_le (by omega) ?_
    by_cases hbrings : ∃ e ∈ selected o path t,
        (e.replaced 0 t).count tally < e.replacement.count tally
    · -- there is less room for the letter
      obtain ⟨e, he, hlt⟩ := hbrings
      have := List.sum_lt_sum _ _ hmore ⟨e, he, hlt⟩
      exact .left _ _ (by omega)
    · -- only bytes that are not counted are gone, and the text is shorter
      have hdrops : ∀ e ∈ selected o path t, e.replacement.length < (e.replaced 0 t).length := by
        intro e he
        obtain ⟨-, hold, hgone⟩ := (hkinds e he).resolve_left fun h => hbrings ⟨e, he, h⟩
        rw [hgone]
        exact List.length_pos_iff.2 hold
      obtain ⟨e, es, hes⟩ := List.exists_cons_of_ne_nil hne
      have he : e ∈ selected o path t := hes ▸ List.mem_cons_self
      have := List.sum_lt_sum _ _ (fun a ha => Nat.le_of_lt (hdrops a ha)) ⟨e, he, hdrops e he⟩
      have := List.sum_le_sum hmore
      exact lex_of_le (by omega) (by omega)

end

/-! ## All rounds -/

section

variable {o : Options} {path text : Text}

theorem round_of_selected_nil (h : selected o path text = []) : round o path text = text := by
  rw [round, h]
  rfl

theorem rounds_add (o : Options) (path text : Text) (m n : Nat) :
    rounds o path text (m + n) = rounds o path (rounds o path text m) n := by
  induction n with
  | zero => rfl
  | succ n ih => exact congrArg (round o path) ih

/-- A text with nothing to do stays as it is. -/
theorem rounds_of_selected_nil (h : selected o path text = []) (n : Nat) :
    rounds o path text n = text := by
  induction n with
  | zero => rfl
  | succ n ih => rw [rounds, ih, round_of_selected_nil h]

theorem exists_selected_nil (hsize : ∀ n, (rounds o path text n).length < UInt32.size) :
    ∃ n, selected o path (rounds o path text n) = [] := by
  have hwf : WellFounded (InvImage Lighter weight) :=
    InvImage.wf _ (Prod.lex Nat.lt_wfRel (Prod.lex Nat.lt_wfRel Nat.lt_wfRel)).wf
  induction text using hwf.induction with
  | _ text ih =>
    by_cases hnil : selected o path text = []
    · exact ⟨0, hnil⟩
    · have hlater : ∀ n, (rounds o path (round o path text) n).length < UInt32.size := by
        intro n
        have := hsize (1 + n)
        rwa [rounds_add] at this
      obtain ⟨n, hn⟩ := ih _ (lighter_round (hsize 0) (hsize 1) hnil) hlater
      exact ⟨1 + n, by rwa [rounds_add]⟩

/-- **Repeated fixing comes to an end.** As long as words can count the bytes of the texts, there is
a round from which on nothing is selected and the text stays as it is. -/
theorem rounds_settle (o : Options) (path text : Text)
    (hsize : ∀ n, (rounds o path text n).length < UInt32.size) :
    ∃ n, ∀ m, n ≤ m → selected o path (rounds o path text m) = [] ∧
      rounds o path text m = rounds o path text n := by
  obtain ⟨n, hn⟩ := exists_selected_nil hsize
  refine ⟨n, ?_⟩
  intro m hm
  obtain ⟨k, rfl⟩ := Nat.exists_eq_add_of_le hm
  have hsame : rounds o path text (n + k) = rounds o path text n := by
    rw [rounds_add, rounds_of_selected_nil hn]
  exact ⟨by rw [hsame, hn], hsame⟩

end

/-- Two rounds are needed for dots with a gap between them. -/
theorem rounds_settle_in_two :
    let text : Text := "from . .a import b\n"
    (∀ n, (rounds .standard "a.mojo" text n).length < UInt32.size) ∧
    selected .standard "a.mojo" text ≠ [] ∧
    selected .standard "a.mojo" (rounds .standard "a.mojo" text 1) ≠ [] ∧
    ∃ n, ∀ m, n ≤ m → selected .standard "a.mojo" (rounds .standard "a.mojo" text m) = [] ∧
      rounds .standard "a.mojo" text m = rounds .standard "a.mojo" text n := by
  repeat rw [Text.ofString_ofList]
  intro text
  have hnil : selected .standard "a.mojo" (rounds .standard "a.mojo" text 2) = [] := by
    decide +kernel
  have hsize : ∀ n, (rounds .standard "a.mojo" text n).length < UInt32.size := by
    intro n
    match n with
    | 0 => decide +kernel
    | 1 => decide +kernel
    | n + 2 =>
      rw [Nat.add_comm, rounds_add, rounds_of_selected_nil hnil]
      decide +kernel
  exact ⟨hsize, by decide +kernel, by decide +kernel, rounds_settle .standard "a.mojo" text hsize⟩

end MojoLint.Checker
