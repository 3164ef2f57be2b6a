import MojoLint.Proofs.Balance.Neutral
import MojoLint.Proofs.Rule.Edits

/-!
# Edits that keep the structure of a text

The edits about imports, bindings and docstrings (`Mends`) put in and take away what means nothing
to the structure scan. The scan does not look at the same lines for code as the rules do, so each
edit has to mean nothing from wherever the scan stands, in code or inside a docstring. Going through
selected edits from the first to the last, the rest of the text leads from every outline to where it
led before (`through_spliceFrom`), and so the new text is balanced exactly when the old one is.
-/

namespace MojoLint

open Edit (spliceFrom Ordered)

namespace Balance

open Rule

/-- The edit belongs to a relative import, to a binding or to a missing docstring. -/
inductive Mends (t : Text) (e : Edit) : Prop
  | dots (drops : DropsDots t e)
  | binding (rebinds : Rebinds t e)
  | stub (documents : Documents t e)

/-! ## Before and behind an edit -/

/-- Texts that the scan goes through alike. -/
def Same (t u : Text) : Prop := ∀ s, through s t = through s u

/-- What stands before a text and leaves it alone: whole lines, and plain bytes. -/
def Clear (p : Text) : Prop := ∀ t u, Same t u → Same (p ++ t) (p ++ u)

theorem Same.feed {t u v w : Text} (hfirst : Same t u) (hrest : Same v w) :
    Same (t ++ Byte.lf :: v) (u ++ Byte.lf :: w) := by
  intro s
  rw [through_feed, through_feed, hfirst s]
  cases through s u with
  | none => rfl
  | some next => exact hrest next

theorem Same.of_plain {p t u : Text} (h : Same (p ++ t) (p ++ u))
    (hp : ∀ b ∈ p, Byte.isPlain b = true) : Same t u := by
  intro s
  rw [← through_plain hp s t, h s, through_plain hp]

theorem clear_nil : Clear [] := fun _ _ hsame => hsame

theorem clear_plain {p : Text} (h : ∀ b ∈ p, Byte.isPlain b = true) : Clear p := by
  intro t u hsame s
  rw [through_plain h, through_plain h, hsame]

theorem clear_lines (p : Text) : Clear (p ++ [Byte.lf]) := by
  intro t u hsame s
  rw [List.append_assoc, List.append_assoc]
  exact Same.feed (fun _ => rfl) hsame s

theorem Clear.append {p q : Text} (hp : Clear p) (hq : Clear q) : Clear (p ++ q) := by
  intro t u hsame
  rw [List.append_assoc, List.append_assoc]
  exact hp _ _ (hq t u hsame)

/-- What is left of the lines above a line, from some byte on. -/
theorem clear_drop_above {above : Text} (h : above = [] ∨ ∃ a, above = a ++ [Byte.lf]) (n : Nat) :
    Clear (above.drop n) := by
  rcases h with rfl | ⟨a, rfl⟩
  · rw [List.drop_nil]
    exact clear_nil
  · by_cases hn : n ≤ a.length
    · rw [List.drop_append_of_le_length hn]
      exact clear_lines _
    · rw [List.drop_eq_nil_of_le (by rw [List.length_append, List.length_singleton]; omega)]
      exact clear_nil

/-- One edit, and what later edits make of the bytes behind it. -/
theorem same_splice {t above before old behind : Text} {e : Edit} {es : List Edit} {base : Nat}
    (ht : t = above ++ (before ++ (old ++ behind)))
    (habove : above = [] ∨ ∃ a, above = a ++ [Byte.lf])
    (hbefore : ∀ b ∈ before, Byte.isPlain b = true)
    (hoffset : e.offset.toNat = above.length + before.length)
    (hlength : e.length.toNat = old.length) (hbase : base ≤ e.offset.toNat)
    (hsame : Same (e.replacement ++ spliceFrom e.stop behind es) (old ++ behind)) :
    Same (spliceFrom base (t.drop base) (e :: es)) (t.drop base) := by
  have hdrop : t.drop base = above.drop base ++ before.drop (base - above.length) ++
      (old ++ behind) := by
    rw [ht, ← List.append_assoc, List.drop_append_of_le_length (by rw [List.length_append]; omega),
      List.drop_append]
  have hlen : (above.drop base ++ before.drop (base - above.length)).length =
      e.offset.toNat - base := by
    rw [List.length_append, List.length_drop, List.length_drop]
    omega
  have hrest : (t.drop base).drop (e.stop - base) = behind := by
    have hstop : e.stop - base = (above.drop base ++ before.drop (base - above.length) ++
        old).length := by
      rw [List.length_append, hlen, Edit.stop, hlength]
      omega
    rw [hdrop, ← List.append_assoc, hstop, List.drop_left]
  have hclear : Clear (above.drop base ++ before.drop (base - above.length)) :=
    (clear_drop_above habove base).append
      (clear_plain fun b hb => hbefore b (List.mem_of_mem_drop hb))
  rw [spliceFrom, hrest, hdrop, ← hlen, List.take_left, List.append_assoc]
  exact hclear _ _ hsame

/-! ## Each kind of edit -/

section

variable {t : Text} {e : Edit} {es : List Edit} {base : Nat}

theorem same_of_dropsDots (h : DropsDots t e) (hbase : base ≤ e.offset.toNat)
    (hlater : Same (spliceFrom e.stop (t.drop e.stop) es) (t.drop e.stop)) :
    Same (spliceFrom base (t.drop base) (e :: es)) (t.drop base) := by
  obtain ⟨i, l, before, dots, behind, hl, hbytes, hplain, hdots, -, -, hoffset, hlength, hrep⟩ := h
  obtain ⟨above, below, hcut⟩ := Line.exists_cut hl
  have hdotsPlain : ∀ b ∈ dots, Byte.isPlain b = true := by
    intro b hb
    rcases hdots b hb with hgap | rfl
    · exact Byte.isPlain_of_isGap hgap
    · rfl
  obtain ⟨ht, hstart, hdrop⟩ := hcut.around hbytes hoffset hlength
  rw [hdrop] at hlater
  refine same_splice ht hcut.above_ends hplain hstart hlength hbase ?_
  intro s
  rw [hrep, List.nil_append, hlater s, through_plain hdotsPlain]

theorem same_of_documents (h : Documents t e) (hbase : base ≤ e.offset.toNat)
    (hlater : Same (spliceFrom e.stop (t.drop e.stop) es) (t.drop e.stop)) :
    Same (spliceFrom base (t.drop base) (e :: es)) (t.drop base) := by
  obtain ⟨j, lead, doc, -, hj, hoffset, hlength, hrep, hstub, hlead⟩ := h
  have hstop : e.stop = e.offset.toNat := by
    rw [Edit.stop, hlength]
    rfl
  by_cases hlast : j = (Line.split t).length ∧ Text.endsWith t "\n" = false
  · -- behind a last line without a line feed, which the stub brings along
    rw [if_pos (by simp [hlast])] at hlead
    have hend : e.offset.toNat = t.length := by rw [hoffset, hlast.1, Line.offsetAt_length_split]
    have hdrop : t.drop e.stop = [] := List.drop_eq_nil_of_le (by omega)
    rw [hdrop] at hlater
    have hsplice : spliceFrom base (t.drop base) (e :: es) =
        t.drop base ++ Byte.lf :: (doc ++ spliceFrom e.stop [] es) := by
      have hrest : (t.drop base).drop (e.stop - base) = [] := by
        rw [List.drop_drop, Nat.add_sub_cancel' (by omega), hdrop]
      rw [spliceFrom, hrest, List.take_of_length_le (by rw [List.length_drop]; omega), hrep, hlead,
        List.append_assoc, List.append_assoc]
      rfl
    intro s
    rw [hsplice, through_feed]
    cases through s (t.drop base) with
    | none => rfl
    | some next => rw [Option.bind_some, through_stub hstub, hlater, through_nil]
  · have hfeed : j = (Line.split t).length → Text.endsWith t "\n" = true := by
      intro hj
      cases hends : Text.endsWith t "\n" with
      | true => rfl
      | false => exact absurd ⟨hj, hends⟩ hlast
    rw [if_neg (by simpa using hfeed)] at hlead
    obtain ⟨above, below, ht, habove, hends⟩ := Line.exists_above hj hfeed
    rw [← habove] at hoffset
    have hdrop : t.drop e.stop = below := by
      rw [ht]
      exact List.drop_left' (by omega)
    rw [hdrop] at hlater
    have hinsert := @same_splice t above [] [] below e es base ht hends (List.forall_mem_nil _)
      hoffset (by rw [hlength]; rfl) hbase
    refine hinsert ?_
    intro s
    rw [hrep, hlead, List.nil_append, List.nil_append, through_stub hstub, hlater]

/-- An edit starts at the start of a line or at a byte of one. -/
theorem Mends.exists_offset (h : Mends t e) :
    ∃ k c, e.offset.toNat = Line.offsetAt (Line.split t) k + c ∧
      (c = 0 ∨ ∃ l, (Line.split t)[k]? = some l ∧ c < l.text.length) := by
  cases h with
  | dots h =>
    obtain ⟨i, l, before, dots, behind, hl, hbytes, -, -, hne, -, hoffset, -, -⟩ := h
    refine ⟨i, before.length, hoffset, .inr ⟨l, hl, ?_⟩⟩
    have := List.length_pos_iff.2 hne
    rw [hbytes, List.length_append, List.length_append]
    omega
  | binding h =>
    obtain ⟨i, l, before, rest, hl, hbytes, -, hoffset, -, -⟩ := h
    refine ⟨i, before.length, hoffset, .inr ⟨l, hl, ?_⟩⟩
    have hlet : (Text.ofString "let").length = 3 := rfl
    rw [hbytes, List.length_append, List.length_append, hlet]
    omega
  | stub h =>
    obtain ⟨j, lead, doc, -, -, hoffset, -, -, -, -⟩ := h
    exact ⟨j, 0, hoffset, .inl rfl⟩

/-- An edit behind the text of a line belongs to a later line. -/
theorem Mends.offsetAt_succ_le (h : Mends t e) {i : Nat} {l : Line}
    (hl : (Line.split t)[i]? = some l) (hne : l.text ≠ [])
    (hbehind : Line.offsetAt (Line.split t) i + l.text.length ≤ e.offset.toNat) :
    Line.offsetAt (Line.split t) (i + 1) ≤ e.offset.toNat := by
  have hpos := List.length_pos_iff.2 hne
  obtain ⟨k, c, hoffset, hc⟩ := h.exists_offset
  by_cases hk : i + 1 ≤ k
  · have := Line.offsetAt_mono (Line.split t) hk
    omega
  · have hle := Line.offsetAt_mono (Line.split t) (Nat.le_of_lt_succ (Nat.lt_of_not_le hk))
    rcases hc with rfl | ⟨l', hl', hlt⟩
    · omega
    · rcases Nat.lt_or_eq_of_le (Nat.le_of_lt_succ (Nat.lt_of_not_le hk)) with hki | rfl
      · have hnext := Line.offsetAt_mono (Line.split t) (Nat.succ_le_of_lt hki)
        rw [Line.offsetAt_succ hl', Line.size] at hnext
        omega
      · rw [hl] at hl'
        cases hl'
        omega

/-- An edit behind a last line without a line feed starts with one. -/
theorem Mends.exists_feed (h : Mends t e) (hend : t.length ≤ e.offset.toNat)
    (hlast : Text.endsWith t "\n" = false) : ∃ doc, e.replacement = Byte.lf :: doc := by
  cases h with
  | dots h =>
    have hle := (Amends.dots rfl h).stop_le
    obtain ⟨i, l, before, dots, behind, -, -, -, -, hne, -, -, hlength, -⟩ := h
    have := List.length_pos_iff.2 hne
    unfold Edit.stop at hle
    omega
  | binding h =>
    have hle := (Amends.binding rfl h).stop_le
    obtain ⟨i, l, before, rest, -, -, -, -, hlength, -⟩ := h
    unfold Edit.stop at hle
    omega
  | stub h =>
    obtain ⟨j, lead, doc, -, hj, hoffset, -, hrep, -, hlead⟩ := h
    have hj : j = (Line.split t).length := by
      rcases Nat.lt_or_eq_of_le hj with hlt | heq
      · have hnext := Line.offsetAt_lt_succ hlt
        have hle : Line.offsetAt (Line.split t) (j + 1) ≤ t.length := Line.offsetAt_le_length hlt
        omega
      · exact heq
    rw [if_pos (by simp [hj, hlast])] at hlead
    exact ⟨doc, by rw [hrep, hlead]; rfl⟩

theorem quiet_marker {ret : Text} (h : ret = [] ∨ ret = [Byte.cr]) :
    Quiet (Variables.marker ++ ret) := by
  have hnone : ∀ b ∈ Variables.marker, (!Byte.isQuote b) = true := List.all_eq_true.1 (by decide)
  have hgap : ∀ b ∈ [Byte.space, Byte.space], Byte.isPlain b = true := List.all_eq_true.1 rfl
  constructor
  · intro b hb
    rcases List.mem_append.1 hb with hb | hb
    · simpa using hnone b hb
    · exact (quiet_return h).noQuote b hb
  · intro brackets
    have hmarker : Variables.marker =
        [Byte.space, Byte.space] ++ Byte.hash :: Variables.marker.drop 3 := by decide
    rw [hmarker, List.append_assoc, outlineOf_plain hgap, List.cons_append, outlineOf_hash]

/-- A line of which only plain bytes in front and a quiet tail are new. -/
theorem through_around {p u v : Text} (hp : ∀ b ∈ p, Byte.isPlain b = true) (hu : Byte.lf ∉ u)
    (hv : Byte.lf ∉ v) (hquiet : Quiet v) (s : Outline) :
    through s (p ++ (u ++ v)) = s.line u := by
  rw [through_plain hp, through_line (List.not_mem_append hu hv), Outline.line_quiet hquiet]

/-- What means nothing and starts a line of its own can stand behind a text. -/
theorem through_append_of_fresh {u : Text} (hsame : Same u [])
    (hfresh : u = [] ∨ ∃ v, u = Byte.lf :: v) (s : Outline) (t : Text) :
    through s (t ++ u) = through s t := by
  rcases hfresh with rfl | ⟨v, rfl⟩
  · rw [List.append_nil]
  · rw [through_feed]
    cases through s t with
    | none => rfl
    | some next =>
      have hfeed := through_plain isPlain_feed next v
      rw [Option.bind_some, ← hfeed, List.singleton_append, hsame next, through_nil]

theorem endsWith_feed_eq_false {u : Text} (hne : u ≠ []) (hu : Byte.lf ∉ u) (t : Text) :
    Text.endsWith (t ++ u) "\n" = false := by
  cases h : Text.endsWith (t ++ u) "\n" with
  | false => rfl
  | true =>
    obtain ⟨v, hv⟩ := List.isSuffixOf_iff_suffix.1 h
    have hlast : (t ++ u).getLast? = some Byte.lf := by
      rw [← hv]
      exact List.getLast?_concat
    rw [List.getLast?_append, List.getLast?_eq_some_getLast hne, Option.some_or] at hlast
    exact absurd (Option.some.inj hlast ▸ List.getLast_mem hne) hu

/-- What edits put behind a last line without a line feed starts a line of its own. -/
theorem spliceFrom_nil_fresh (hes : ∀ a ∈ es, Mends t a ∧ t.length ≤ a.offset.toNat)
    (hlast : Text.endsWith t "\n" = false) :
    spliceFrom base [] es = [] ∨ ∃ v, spliceFrom base [] es = Byte.lf :: v := by
  cases es with
  | nil => exact .inl rfl
  | cons a es =>
    obtain ⟨hmends, hend⟩ := hes a List.mem_cons_self
    obtain ⟨doc, hdoc⟩ := hmends.exists_feed hend hlast
    rw [spliceFrom, List.take_nil, List.drop_nil, hdoc, List.nil_append, List.cons_append]
    exact .inr ⟨_, rfl⟩

/-- The line of a binding leads where it led, up to its line feed. -/
theorem same_rebound {rest ret : Text} (hrest : Byte.lf ∉ rest)
    (hret : ret = [] ∨ ret = [Byte.cr]) :
    Same (Text.ofString "var" ++ Text.trimRight rest ++ Variables.marker ++ ret)
      (Text.ofString "let" ++ rest ++ ret) := by
  obtain ⟨blank, hblank, hspaces⟩ := Text.exists_trimRight_append rest
  have hnoFeed : Byte.lf ∉ Text.trimRight rest ∧ Byte.lf ∉ blank := by
    rwa [hblank, List.mem_append, not_or] at hrest
  have hretFeed : Byte.lf ∉ ret := by rcases hret with rfl | rfl <;> decide
  have hvar : ∀ b ∈ Text.ofString "var", Byte.isPlain b = true := List.all_eq_true.1 (by decide)
  have hlet : ∀ b ∈ Text.ofString "let", Byte.isPlain b = true := List.all_eq_true.1 (by decide)
  have hquiet : Quiet (blank ++ ret) := by
    refine quiet_of_plain (List.forall_mem_append.2 ⟨?_, isPlain_return hret⟩)
    exact fun b hb => Byte.isPlain_of_isSpace (hspaces b hb)
  intro s
  calc through s (Text.ofString "var" ++ Text.trimRight rest ++ Variables.marker ++ ret)
      = through s (Text.ofString "var" ++ (Text.trimRight rest ++ (Variables.marker ++ ret))) := by
        simp only [List.append_assoc]
    _ = s.line (Text.trimRight rest) := by
        refine through_around hvar hnoFeed.1 ?_ (quiet_marker hret) s
        exact List.not_mem_append (by decide) hretFeed
    _ = through s (Text.ofString "let" ++ (Text.trimRight rest ++ (blank ++ ret))) := by
        refine (through_around hlet hnoFeed.1 ?_ hquiet s).symm
        exact List.not_mem_append hnoFeed.2 hretFeed
    _ = through s (Text.ofString "let" ++ rest ++ ret) := by
        rw [← List.append_assoc _ blank ret, ← hblank, List.append_assoc]

/-- A line that leads where it led before, with or without a carriage return, still does so
together with what later edits make of the text behind it. -/
theorem same_behind_line {i : Nat} {l : Line} {above below new old : Text}
    (hl : (Line.split t)[i]? = some l) (hcut : Line.Cut t i l above below) (hne : l.text ≠ [])
    (hlines : ∀ ret, ret = [] ∨ ret = [Byte.cr] → Same (new ++ ret) (old ++ ret))
    (hbase : base = Line.offsetAt (Line.split t) i + l.text.length)
    (hes : ∀ a ∈ es, Mends t a ∧ base ≤ a.offset.toNat)
    (hlater : Same (spliceFrom base (l.ending ++ below) es) (l.ending ++ below)) :
    Same (new ++ spliceFrom base (l.ending ++ below) es) (old ++ (l.ending ++ below)) := by
  obtain ⟨ret, hret, hending⟩ := hcut.ending
  have hplain : ∀ b ∈ l.ending, Byte.isPlain b = true := by
    rcases hending with hending | ⟨hending, -⟩ <;> rw [hending]
    · exact List.forall_mem_append.2 ⟨isPlain_return hret, isPlain_feed⟩
    · exact isPlain_return hret
  -- later edits leave the end of the line alone
  have hbeyond : ∀ a ∈ es, base + l.ending.length ≤ a.offset.toNat := by
    intro a ha
    obtain ⟨hmends, hbehind⟩ := hes a ha
    have := hmends.offsetAt_succ_le hl hne (by omega)
    rw [Line.offsetAt_succ hl, Line.size] at this
    omega
  rw [Edit.spliceFrom_skip hbeyond] at hlater ⊢
  have hbelow := hlater.of_plain hplain
  rw [← List.append_assoc, ← List.append_assoc]
  rcases hending with hending | ⟨hending, rfl⟩
  · rw [hending] at hbelow ⊢
    rw [← List.append_assoc, ← List.append_assoc, List.append_assoc _ [Byte.lf],
      List.append_assoc _ [Byte.lf]]
    exact (hlines ret hret).feed hbelow
  · -- the line is the last one, so whatever comes behind it starts with a line feed
    have hall : t = above ++ (l.text ++ ret) := by
      rw [hcut.bytes_eq, Line.bytes, hending, List.append_nil]
    have hlast : Text.endsWith t "\n" = false := by
      rw [hall]
      refine endsWith_feed_eq_false (List.append_ne_nil_of_left_ne_nil hne ret) ?_ above
      exact List.not_mem_append hcut.no_feed (by rcases hret with rfl | rfl <;> decide)
    have hsize : t.length = base + l.ending.length := by
      rw [hall, hbase, hending, List.length_append, List.length_append, hcut.length_above]
      omega
    have hfresh := @spliceFrom_nil_fresh t es (base + l.ending.length)
      (fun a ha => ⟨(hes a ha).1, hsize ▸ hbeyond a ha⟩) hlast
    intro s
    rw [through_append_of_fresh hbelow hfresh, List.append_nil, hending]
    exact hlines ret hret s

theorem same_of_rebinds (h : Rebinds t e) (hbase : base ≤ e.offset.toNat)
    (hes : ∀ a ∈ es, Mends t a ∧ e.stop ≤ a.offset.toNat)
    (hlater : Same (spliceFrom e.stop (t.drop e.stop) es) (t.drop e.stop)) :
    Same (spliceFrom base (t.drop base) (e :: es)) (t.drop base) := by
  obtain ⟨i, l, before, rest, hl, hbytes, hgaps, hoffset, hlength, hrep⟩ := h
  obtain ⟨above, below, hcut⟩ := Line.exists_cut hl
  have hlet : (Text.ofString "let").length = 3 := rfl
  have hlen : l.text.length = before.length + 3 + rest.length := by
    rw [hbytes, List.length_append, List.length_append, hlet]
  have hline : l.text = before ++ (Text.ofString "let" ++ rest) ++ [] := by
    rw [hbytes, List.append_nil, List.append_assoc]
  have hold : e.length.toNat = (Text.ofString "let" ++ rest).length := by
    rw [hlength, List.length_append, hlet]
  obtain ⟨ht, hstart, hdrop⟩ := hcut.around hline hoffset hold
  rw [List.nil_append] at ht hdrop
  rw [hdrop] at hlater
  have hrestFeed : Byte.lf ∉ rest := fun hmem =>
    hcut.no_feed (by rw [hbytes]; exact List.mem_append_right _ hmem)
  refine same_splice ht hcut.above_ends (fun b hb => Byte.isPlain_of_isGap (hgaps b hb))
    hstart hold hbase ?_
  rw [hrep]
  refine same_behind_line hl hcut (List.length_pos_iff.1 (by omega))
    (fun _ hret => same_rebound hrestFeed hret) ?_ hes hlater
  unfold Edit.stop
  omega

/-! ## Selected edits -/

/-- **Edits of imports, bindings and docstrings mean nothing to the scan.** -/
theorem through_spliceFrom (ho : Ordered es) (h : ∀ e ∈ es, Mends t e)
    (hbase : ∀ e ∈ es, base ≤ e.offset.toNat) :
    Same (spliceFrom base (t.drop base) es) (t.drop base) := by
  -- from the first edit on: what stands behind an edit is settled before what stands around it
  induction es generalizing base with
  | nil =>
    intro s
    rfl
  | cons e es ih =>
    obtain ⟨hbehind, hordered⟩ := List.pairwise_cons.1 ho
    obtain ⟨hmends, hrest⟩ := List.forall_mem_cons.1 h
    have hlater := @ih e.stop hordered hrest hbehind
    have hstart := hbase e List.mem_cons_self
    cases hmends with
    | dots hdots => exact same_of_dropsDots hdots hstart hlater
    | binding hlet =>
      exact same_of_rebinds hlet hstart (fun a ha => ⟨hrest a ha, hbehind a ha⟩) hlater
    | stub hstub => exact same_of_documents hstub hstart hlater

end

/-- The rules about imports, bindings and missing docstrings. -/
def mendingIds : List Text :=
  ["RELATIVE_IMPORT", "LET_BINDING", "MISSING_STRUCT_DOC", "MISSING_FN_DOC"]

/-- The edits of these rules, in the order of the report. -/
def mendingEdits (o : Checker.Options) (path text : Text) : List Edit :=
  ((Checker.check o path text).findings.filter fun f => f.id ∈ mendingIds).flatMap Finding.edits

theorem mends_of_mem_mendingEdits {o : Checker.Options} {path text : Text} {e : Edit}
    (hsize : text.length < UInt32.size) (h : e ∈ mendingEdits o path text) :
    Mends text e ∧ e.stop ≤ text.length := by
  have hdisjoint : ∀ id ∈ Traits.ids, id ∉ mendingIds := by decide
  obtain ⟨f, hf, he⟩ := List.mem_flatMap.1 h
  obtain ⟨hf, hid⟩ := List.mem_filter.1 hf
  have hamends := (Checker.edit_cases_of_check hsize hf he).2
  refine ⟨?_, hamends.stop_le⟩
  cases hamends with
  | dots _ hdots => exact .dots hdots
  | binding _ hlet => exact .binding hlet
  | stub _ hstub => exact .stub hstub
  | traits htraits _ => exact absurd (of_decide_eq_true hid) (hdisjoint f.id htraits)
  | removal htraits _ => exact absurd (of_decide_eq_true hid) (hdisjoint f.id htraits)

/-- **Mending keeps the structure.** What is selected from the edits of these rules is carried out,
and the new text is balanced exactly when the old one is. -/
theorem check_mended (o : Checker.Options) (path text : Text) (hsize : text.length < UInt32.size) :
    ∃ new, Edit.applyAll text (Edit.select (mendingEdits o path text)).edits = ⟨new, none⟩ ∧
      (check new = .ok () ↔ check text = .ok ()) := by
  have hmends := fun e he => @mends_of_mem_mendingEdits o path text e hsize he
  obtain ⟨hordered, happly⟩ := Edit.applyAll_select hsize fun e he => (hmends e he).2
  refine ⟨_, happly, ?_⟩
  have hsame : Same (spliceFrom 0 text (Edit.select (mendingEdits o path text)).edits) text :=
    @through_spliceFrom text _ 0 hordered (fun e he => (hmends e (Edit.mem_of_mem_select he)).1)
      fun e _ => Nat.zero_le e.offset.toNat
  rw [check_eq_ok_iff_through, check_eq_ok_iff_through, hsame]

/-- A text with a finding of each of these rules. Its binding stands in a docstring that the rules
do not see, since they count the delimiter in the comment above. -/
theorem check_mended_of_each_kind :
    let text : Text := "# \"\"\"\n\"\"\"\nlet y = f(\n\"\"\"\n# \"\"\"\nfrom ..a import b\n" ++
      "struct S:\n  fn g(self):\n    pass"
    text.length < UInt32.size ∧ check text = .ok () ∧
    (∀ id ∈ mendingIds, ∃ f ∈ (Checker.check .standard "a.mojo" text).findings,
      f.id = id ∧ f.edits ≠ []) ∧
    ∃ new, Edit.applyAll text (Edit.select (mendingEdits .standard "a.mojo" text)).edits =
      ⟨new, none⟩ ∧ check new = .ok () := by
  repeat rw [Text.ofString_ofList]
  intro text
  have hsize : text.length < UInt32.size := by decide +kernel
  have hok : check text = .ok () := by decide +kernel
  obtain ⟨new, hnew, hiff⟩ := check_mended .standard "a.mojo" text hsize
  refine ⟨hsize, hok, ?_, new, hnew, hiff.2 hok⟩
  simp only [Checker.mem_check_findings]
  decide +kernel

end Balance

end MojoLint
