import Mathlib.Data.List.Perm.Basic
import MojoLint.Lifecycle.Basic
import MojoLint.Proofs.Block.Replacement
import MojoLint.Proofs.Lifecycle.SourceArgument

/-!
# Trivial lifecycle methods

A body without triple-quote delimiters is trivial when each of its code lines copies a field, no
field twice, and no known field is left out (`isTrivial_iff`). Known are the fields that the struct
declares on the level of its first code line (`fields_eq_filterMap`). The order of the lines does
not come into this. It could come in through the header, which names the source argument and may run
on over the body, but a trivial body holds nothing that a header would look at
(`sourceArgument_withBody`).
-/

namespace MojoLint.Lifecycle

open Token (codeTokens codeOf)

/-! ## Field copies -/

/-- The kinds and texts of the tokens behind a field copy: a move transfers with `^`. -/
def Operation.ending : Operation → List (Kind × Text)
  | .copy => []
  | .move => [(.punct, "^")]

/-- The kinds and texts of the tokens of `self.f = src.f`, or of `self.f = src.f^` for a move. -/
def fieldCopy (op : Operation) (src f : Text) : List (Kind × Text) :=
  (.ident, "self") :: (.punct, ".") :: (.ident, f) :: (.punct, "=") :: (.ident, src) ::
    (.punct, ".") :: (.ident, f) :: op.ending

/-- The line copies the field `f`, and there is nothing else on it but a comment. -/
def IsFieldCopy (op : Operation) (src line f : Text) : Prop :=
  (codeTokens line).map (fun t => (t.kind, t.text)) = fieldCopy op src f

theorem endsWith_iff {op : Operation} {ts : List Token} :
    op.endsWith ts = true ↔ ts.map (fun t => (t.kind, t.text)) = op.ending := by
  rcases op <;> rcases ts with _ | ⟨t, _ | ⟨u, ts⟩⟩ <;>
    simp [Operation.endsWith, Operation.ending, Token.isPunct]

theorem assignedField?_eq_some_iff {op : Operation} {src line f : Text} :
    assignedField? op src line = some f ↔ IsFieldCopy op src line f := by
  unfold assignedField? IsFieldCopy codeTokens
  generalize Token.dropComment (Token.ofLine line) = ts
  split
  · rename_i a b c d e g h rest
    simp only [Option.ite_none_right_eq_some, Option.some.injEq, Bool.and_eq_true, Token.isIdent,
      Token.isPunct, beq_iff_eq, endsWith_iff, fieldCopy, List.map_cons, List.cons.injEq,
      Prod.mk.injEq]
    constructor
    · rintro ⟨⟨⟨⟨⟨⟨⟨⟨ha, hb⟩, hc⟩, hd⟩, he⟩, hg⟩, hh⟩, hrest⟩, rfl⟩
      exact ⟨ha, hb, ⟨hc, rfl⟩, hd, he, hg, hh, hrest⟩
    · rintro ⟨ha, hb, ⟨hc, rfl⟩, hd, he, hg, hh, hrest⟩
      exact ⟨⟨⟨⟨⟨⟨⟨⟨ha, hb⟩, hc⟩, hd⟩, he⟩, hg⟩, hh⟩, hrest⟩, rfl⟩
  · rename_i hshort
    refine iff_of_false (by simp) fun htokens => ?_
    -- as many tokens as these would have been split off
    rcases ts with _ | ⟨a, _ | ⟨b, _ | ⟨c, _ | ⟨d, _ | ⟨e, _ | ⟨g, _ | ⟨h, rest⟩⟩⟩⟩⟩⟩⟩
    case cons.cons.cons.cons.cons.cons.cons => exact hshort a b c d e g h rest rfl
    all_goals exact absurd (congrArg List.length htokens) (by simp [fieldCopy])

theorem assignedFields?_eq_some_iff {op : Operation} {src : Text} {lines names : List Text} :
    assignedFields? op src lines = some names ↔
      List.Forall₂ (IsFieldCopy op src) lines names := by
  induction lines generalizing names with
  | nil => rw [List.forall₂_nil_left_iff, assignedFields?, Option.some.injEq, eq_comm]
  | cons line lines ih =>
    rw [List.forall₂_cons_left_iff, assignedFields?]
    constructor
    · intro h
      split at h
      · rename_i f fs hf hfs
        cases h
        exact ⟨f, fs, assignedField?_eq_some_iff.1 hf, ih.1 hfs, rfl⟩
      · cases h
    · rintro ⟨f, fs, hf, hfs, rfl⟩
      rw [assignedField?_eq_some_iff.2 hf, ih.2 hfs]

theorem covers_iff {names fields : List Text} :
    covers names fields = true ↔
      names.Nodup ∧ names ≠ [] ∧ (fields ≠ [] → ∀ f, f ∈ names ↔ f ∈ fields) := by
  have hsame : (names.all fields.contains && fields.all names.contains) = true ↔
      ∀ f, f ∈ names ↔ f ∈ fields := by
    simp only [Bool.and_eq_true, List.all_eq_true, List.contains_iff_mem]
    exact ⟨fun h f => ⟨h.1 f, h.2 f⟩, fun h => ⟨fun f => (h f).1, fun f => (h f).2⟩⟩
  rw [covers, Bool.and_eq_true, Bool.and_eq_true, Bool.or_eq_true, hsame, decide_eq_true_eq,
    and_assoc, Bool.not_eq_true', List.isEmpty_eq_false_iff, List.isEmpty_iff, or_iff_not_imp_left]

/-! ## Known fields -/

theorem fieldsAt_eq_filterMap {level : Int32} (hlevel : ¬ level < 0) (ls : List Text) :
    fieldsAt level ls = ls.filterMap fun line =>
      if (Line.indent line).toInt32 = level then declaredField? line else none := by
  induction ls with
  | nil => rfl
  | cons line ls ih =>
    rw [fieldsAt, if_neg hlevel, List.filterMap_cons, ih]
    split
    · cases declaredField? line <;> rfl
    · rfl

/-- **The fields of a struct are declared on the level of its first code line**, unless that line is
so deep that its level counts as none. -/
theorem fields_eq_filterMap {lines : List Text} {struct : Block} {i : Nat} {first : Text}
    {rest : List (Nat × Text)} (hcode : struct.codeLines lines = (i, first) :: rest)
    (hlevel : ¬ (Line.indent first).toInt32 < 0) :
    fields lines struct = ((struct.codeLines lines).map Prod.snd).filterMap fun line =>
      if Line.indent line = Line.indent first then declaredField? line else none := by
  have hstart : fieldsAt (-1) (first :: rest.map Prod.snd) =
      fieldsAt (Line.indent first).toInt32 (first :: rest.map Prod.snd) := by
    simp only [fieldsAt, if_neg hlevel, show (-1 : Int32) < 0 by decide, if_true]
  have hsame : ∀ a b : UInt32, a.toInt32 = b.toInt32 ↔ a = b := fun a b =>
    ⟨fun h => congrArg Int32.toUInt32 h, congrArg UInt32.toInt32⟩
  rw [fields, hcode, List.map_cons, hstart, fieldsAt_eq_filterMap hlevel]
  simp only [hsame]

/-! ## Bodies without delimiters -/

theorem map_codeLinesFrom {ls : List Text} (h : ∀ line ∈ ls, Delimiter.count line = 0) (i : Nat) :
    (Block.codeLinesFrom i false ls).map Prod.snd = ls.filter (!Line.isBlankOrComment ·) := by
  induction ls generalizing i with
  | nil => rfl
  | cons line ls ih =>
    obtain ⟨hline, hls⟩ := List.forall_mem_cons.1 h
    have hrest := ih hls (i + 1)
    rw [Block.codeLinesFrom, hline, List.filter_cons]
    cases Line.isBlankOrComment line with
    | true => exact hrest
    | false => exact congrArg (line :: ·) hrest

section

variable {lines : List Text} {b : Block} {op : Operation} {fields : List Text}
  (hplain : ∀ line ∈ b.body lines, Delimiter.count line = 0)

include hplain

/-- **A trivial method copies fields**, each once and none left out. -/
theorem isTrivial_iff :
    isTrivial lines b op fields = true ↔
      ∃ names, List.Forall₂
        (IsFieldCopy op (sourceArgument (Block.headerText lines b.header)))
        ((b.body lines).filter (!Line.isBlankOrComment ·)) names ∧
          names.Nodup ∧ names ≠ [] ∧ (fields ≠ [] → ∀ f, f ∈ names ↔ f ∈ fields) := by
  unfold isTrivial Block.codeLines
  rw [map_codeLinesFrom hplain]
  simp only [← covers_iff, ← assignedFields?_eq_some_iff]
  split
  · rename_i names hnames
    simp [hnames]
  · rename_i hnone
    simp [hnone]

/-- Only the set of the fields matters. -/
theorem isTrivial_congr_fields {fields' : List Text} (h : ∀ f, f ∈ fields' ↔ f ∈ fields) :
    isTrivial lines b op fields' = isTrivial lines b op fields := by
  have hnil : fields' ≠ [] ↔ fields ≠ [] := by
    simp only [ne_eq, List.eq_nil_iff_forall_not_mem, h]
  rw [Bool.eq_iff_iff, isTrivial_iff hplain, isTrivial_iff hplain]
  simp only [hnil, h]

end

/-! ## The lines of a trivial body -/

/-- The line copies a field. -/
def CopiesField (line : Text) : Prop := ∃ op src f, IsFieldCopy op src line f

/-- The line is blank, a comment or a field copy. -/
def IsPlainLine (line : Text) : Prop := Line.isBlankOrComment line = true ∨ CopiesField line

theorem mem_fieldCopy {op : Operation} {src f : Text} {p : Kind × Text}
    (h : p ∈ fieldCopy op src f) : p.1 = .ident ∨ p.2 ∈ ([".", "=", "^"] : List Text) := by
  revert p
  cases op <;> simp [fieldCopy, Operation.ending]

theorem CopiesField.isFlat {line : Text} (h : CopiesField line) :
    ∀ t ∈ codeTokens line, t.IsFlat := by
  have hident : ∀ {b}, Byte.isIdentPart b = true → Byte.isFlat b = true := @(Byte.all (by decide))
  have hsign : ∀ sign ∈ ([".", "=", "^"] : List Text), ∀ b ∈ sign, Byte.isFlat b = true := by
    simp only [← List.all_eq_true]
    decide
  obtain ⟨op, src, f, h⟩ := h
  intro t ht b hb
  have hmem : (t.kind, t.text) ∈ fieldCopy op src f := by
    rw [← h]
    exact List.mem_map.2 ⟨t, ht, rfl⟩
  rcases mem_fieldCopy hmem with hkind | htext
  · obtain ⟨comment, hall⟩ := Token.exists_append_dropComment (Token.ofLine line)
    have hline : t ∈ Token.scan 0 line := by
      rw [← Token.ofLine, hall]
      exact List.mem_append_left comment ht
    exact hident ((Token.isName_of_mem_scan hline hkind).isIdentPart b hb)
  · exact hsign t.text htext b hb

theorem CopiesField.tokens {line : Text} (h : CopiesField line) :
    ∀ t ∈ Token.ofLine line, t.kind = .comment ∨ t.IsFlat := by
  intro t ht
  rcases Token.dropComment_spec (Token.ofLine line) with hall | ⟨comment, hcomment, hall⟩
  · exact .inr (h.isFlat t (by rwa [codeTokens, hall]))
  · rw [hall] at ht
    rcases List.mem_append.1 ht with ht | ht
    · exact .inr (h.isFlat t ht)
    · exact .inl (by rw [List.mem_singleton.1 ht, hcomment])

/-- A header passes over plain lines. -/
theorem passive_of_plain {ls : List Text} (h : ∀ line ∈ ls, IsPlainLine line) :
    Block.Passive ls := by
  have hflat : ∀ {b}, Byte.isFlat b = true → Byte.isStructure b = false :=
    @(Byte.all (by decide))
  have hspace : ∀ {b}, Byte.isSpace b = true → Byte.isStructure b = false :=
    @(Byte.all (by decide))
  intro line hline depth
  apply Block.depthAfter_of_forall
  intro t ht
  rcases h line hline with hblank | hcopy
  · exact (Token.tokens_of_isBlankOrComment hblank t ht).imp_right fun h b hb => hspace (h.2 b hb)
  · exact (hcopy.tokens t ht).imp_right fun h b hb => hflat (h b hb)

/-! ## The code of a trivial body -/

theorem codeOf_of_isBlankOrComment {line : Text} (h : Line.isBlankOrComment line = true) :
    codeOf line = [] := by
  have hspace : ∀ b ∈ codeOf line, Byte.isSpace b = true := by
    intro b hb
    rcases Token.mem_codeOf hb with hgap | ⟨t, ht, hkind, hb⟩
    · exact Byte.isSpace_of_isGap hgap
    · exact ((Token.tokens_of_isBlankOrComment h t ht).resolve_left hkind).2 b hb
  rcases List.eq_nil_or_concat (codeOf line) with hnil | ⟨init, b, hconcat⟩
  · exact hnil
  · rw [List.concat_eq_append] at hconcat
    have hlast := Text.isSpace_of_getLast?_trimRight b (by
      rw [← Token.codeView, ← Token.codeOf, hconcat]
      exact List.getLast?_concat)
    rw [hspace b (by rw [hconcat]; exact List.mem_concat_self)] at hlast
    cases hlast

/-- The code view of a field copy is a statement. -/
theorem CopiesField.isStatementText {line : Text} (h : CopiesField line) :
    IsStatementText (codeOf line) := by
  have hgapflat : ∀ {b}, Byte.isGap b = true → Byte.isFlat b = true ∧ Byte.isIdentPart b = false :=
    @(Byte.all (by decide))
  have hbytes : ∀ b ∈ codeOf line, Byte.isFlat b = true := by
    intro b hb
    rcases Token.mem_codeOf hb with hgap | ⟨t, ht, hkind, hb⟩
    · exact (hgapflat hgap).1
    · exact (h.tokens t ht).resolve_left hkind b hb
  obtain ⟨op, src, f, h⟩ := h
  obtain ⟨s, rest, hcode, hs, hmore⟩ := List.map_eq_cons_iff.1 h
  obtain ⟨v, ts, rfl, hv, -⟩ := List.map_eq_cons_iff.1 hmore
  obtain ⟨hs, hself⟩ := Prod.mk.inj hs
  obtain ⟨hv, hdot⟩ := Prod.mk.inj hv
  obtain ⟨comment, hall⟩ := Token.exists_append_dropComment (Token.ofLine line)
  rw [← codeTokens, hcode] at hall
  obtain ⟨gap, between, w, hview, hgap, hbetween⟩ :=
    Token.exists_codeOf_name hall hs (by rw [hself]; decide) hv hdot rfl
  rw [hview, hself] at hbytes ⊢
  refine .intro hgap ?_ (List.mem_append_right between List.mem_cons_self) rfl ?_
  · intro c hc
    cases between with
    | nil =>
      cases hc
      rfl
    | cons b between =>
      cases hc
      exact (hgapflat (hbetween _ rfl)).2
  · intro c hc
    exact hbytes c (List.mem_append_right _ (List.mem_append_right _ hc))

theorem IsStatementText.cons_gap {x : Text} {b : UInt8} (hb : Byte.isGap b = true)
    (h : IsStatementText x) : IsStatementText (b :: x) := by
  obtain ⟨gaps, apart, more, code, flat⟩ := h
  exact .intro (List.forall_mem_cons.2 ⟨hb, gaps⟩) apart more code flat

theorem IsStatementText.ne_nil {x : Text} (h : IsStatementText x) : x ≠ [] := by
  obtain ⟨gaps, apart, more, code, flat⟩ := h
  exact List.append_ne_nil_of_right_ne_nil _ (List.append_ne_nil_of_left_ne_nil (by decide) _)

theorem IsStatementText.append {x u : Text} (h : IsStatementText x)
    (hu : ∀ b ∈ u, Byte.isFlat b = true) : IsStatementText (x ++ u) := by
  obtain ⟨gaps, apart, more, code, flat⟩ := h
  rename_i gap w b
  rw [List.append_assoc, List.append_assoc]
  refine .intro gaps ?_ (List.mem_append_left u more) code (List.forall_mem_append.2 ⟨flat, hu⟩)
  intro c hc
  obtain ⟨d, w, rfl⟩ := List.exists_cons_of_ne_nil (List.ne_nil_of_mem more)
  exact apart c hc

theorem isFlat_space : ∀ b ∈ (" " : Text), Byte.isFlat b = true :=
  List.all_eq_true.1 (by decide)

theorem isFlat_intercalate {xs : List Text} (h : ∀ line ∈ xs, IsPlainLine line) :
    ∀ b ∈ List.intercalate " " (xs.map codeOf), Byte.isFlat b = true := by
  induction xs with
  | nil => nofun
  | cons line xs ih =>
    obtain ⟨hline, hxs⟩ := List.forall_mem_cons.1 h
    have hfirst : ∀ b ∈ codeOf line, Byte.isFlat b = true := by
      rcases hline with hblank | hcopy
      · rw [codeOf_of_isBlankOrComment hblank]
        nofun
      · exact hcopy.isStatementText.isFlat
    cases xs with
    | nil => rwa [List.map_singleton, List.intercalate_singleton]
    | cons next xs =>
      rw [List.map_cons, List.map_cons, List.intercalate_cons_cons, List.append_assoc]
      exact List.forall_mem_append.2 ⟨hfirst, List.forall_mem_append.2 ⟨isFlat_space, ih hxs⟩⟩

/-- The code of a trivial body, on one line, is a statement. -/
theorem isStatementText_intercalate {xs : List Text} (h : ∀ line ∈ xs, IsPlainLine line)
    (hcopy : ∃ line ∈ xs, CopiesField line) :
    IsStatementText (List.intercalate " " (xs.map codeOf)) := by
  induction xs with
  | nil =>
    obtain ⟨line, hline, -⟩ := hcopy
    cases hline
  | cons line xs ih =>
    obtain ⟨hline, hxs⟩ := List.forall_mem_cons.1 h
    cases xs with
    | nil =>
      obtain ⟨copy, hmem, hcopy⟩ := hcopy
      rw [List.mem_singleton.1 hmem] at hcopy
      rw [List.map_singleton, List.intercalate_singleton]
      exact hcopy.isStatementText
    | cons next xs =>
      rw [List.map_cons, List.map_cons, List.intercalate_cons_cons, List.append_assoc]
      rcases hline with hblank | hfirst
      · rw [codeOf_of_isBlankOrComment hblank]
        refine .cons_gap (b := Byte.space) rfl (ih hxs ?_)
        obtain ⟨copy, hmem, hcopy⟩ := hcopy
        rcases List.mem_cons.1 hmem with rfl | hmem
        · exact absurd (codeOf_of_isBlankOrComment hblank) hcopy.isStatementText.ne_nil
        · exact ⟨copy, hmem, hcopy⟩
      · exact hfirst.isStatementText.append
          (List.forall_mem_append.2 ⟨isFlat_space, isFlat_intercalate hxs⟩)

/-! ## The source argument -/

/-- There is no source argument in a header that starts with a plain line. -/
theorem sourceArgument?_plain {line : Text} (h : IsPlainLine line) (ls : List Text) :
    sourceArgument? (Block.headerText (line :: ls) 0) = none := by
  have hpassive : Block.Passive [line] := passive_of_plain (List.forall_mem_singleton.2 h)
  have hcolon : Block.linesToColon 0 (line :: ls) = none := by
    rw [Block.linesToColon, hpassive line (List.mem_singleton_self line)]
  apply sourceArgument?_flat
  rw [Block.headerText_eq, List.drop_zero, hcolon]
  intro b hb
  have hshown : b ∈ List.intercalate " " ([line].map codeOf) := by
    have hleft := Text.mem_of_mem_trimRight hb
    exact (List.dropWhile_sublist _).subset hleft
  exact isFlat_intercalate (List.forall_mem_singleton.2 h) b hshown

theorem sourceArgument?_within {xs : List Text} (h : ∀ line ∈ xs, IsPlainLine line) {n : Nat}
    (hn : n < xs.length) (below : List Text) :
    sourceArgument? (Block.headerText (xs.drop n ++ below) 0) = none := by
  rw [List.drop_eq_getElem_cons hn, List.cons_append]
  exact sourceArgument?_plain (h _ (List.getElem_mem hn)) _

section

variable {ls xs : List Text} (hperm : ls.Perm xs) (hplain : ∀ line ∈ xs, IsPlainLine line)
  (hcopy : ∃ line ∈ xs, CopiesField line)

include hperm hplain hcopy

/-- A header that starts above a plain body may run on over it, whatever the order of its lines. -/
theorem sourceArgument?_above {above : List Text} (habove : above ≠ []) (below : List Text) :
    sourceArgument? (Block.headerText (above ++ (ls ++ below)) 0) =
      sourceArgument? (Block.headerText (above ++ (xs ++ below)) 0) := by
  have hplain' : ∀ line ∈ ls, IsPlainLine line := fun line hline =>
    hplain line (hperm.mem_iff.1 hline)
  obtain ⟨copy, hmem, hcopies⟩ := hcopy
  have hmem' := hperm.mem_iff.2 hmem
  rcases Block.headerText_cases habove (passive_of_plain hplain) below with
    hsame | ⟨front, back, hbetween⟩
  · rw [hsame ls (passive_of_plain hplain') hperm.length_eq]
  · rw [hbetween ls (passive_of_plain hplain') hperm.length_eq (List.ne_nil_of_mem hmem'),
      hbetween xs (passive_of_plain hplain) rfl (List.ne_nil_of_mem hmem)]
    exact sourceArgument?_between (isStatementText_intercalate hplain' ⟨copy, hmem', hcopies⟩)
      (isStatementText_intercalate hplain ⟨copy, hmem, hcopies⟩)
      (Text.length_intercalate_of_perm (hperm.map codeOf)) front back

/-- The header may start above the body, within it or below it. -/
theorem sourceArgument?_drop (above below : List Text) (header : Nat) :
    sourceArgument? (Block.headerText ((above ++ (ls ++ below)).drop header) 0) =
      sourceArgument? (Block.headerText ((above ++ (xs ++ below)).drop header) 0) := by
  have hplain' : ∀ line ∈ ls, IsPlainLine line := fun line hline =>
    hplain line (hperm.mem_iff.1 hline)
  have hcut : ∀ zs : List Text, (above ++ (zs ++ below)).drop header =
      above.drop header ++ (zs ++ below).drop (header - above.length) := fun _ => List.drop_append
  rw [hcut, hcut]
  rcases Nat.lt_or_ge header above.length with habove | hbehind
  · rw [Nat.sub_eq_zero_of_le (Nat.le_of_lt habove), List.drop_zero, List.drop_zero]
    have hne : above.drop header ≠ [] := by
      rw [Ne, List.drop_eq_nil_iff]
      exact Nat.not_le_of_lt habove
    exact sourceArgument?_above hperm hplain hcopy hne below
  · rw [List.drop_of_length_le hbehind, List.nil_append, List.nil_append, List.drop_append,
      List.drop_append, hperm.length_eq]
    rcases Nat.lt_or_ge (header - above.length) xs.length with hwithin | hbelow
    · rw [sourceArgument?_within hplain' (by rwa [hperm.length_eq]),
        sourceArgument?_within hplain hwithin]
    · rw [List.drop_of_length_le (by rwa [hperm.length_eq]), List.drop_of_length_le hbelow]

end

/-- **The order of a plain body** does not matter to the source argument of its method. -/
theorem sourceArgument_withBody {lines ls : List Text} {b : Block} (hperm : ls.Perm (b.body lines))
    (hplain : ∀ line ∈ b.body lines, IsPlainLine line)
    (hcopy : ∃ line ∈ b.body lines, CopiesField line) :
    sourceArgument (Block.headerText (b.withBody lines ls) b.header) =
      sourceArgument (Block.headerText lines b.header) := by
  rw [sourceArgument, sourceArgument]
  congr 1
  conv => rhs; rw [← b.withBody_body lines]
  rw [Block.headerText_drop, Block.headerText_drop (b.withBody lines (b.body lines)),
    Block.withBody, Block.withBody]
  exact sourceArgument?_drop hperm hplain hcopy _ _ _

/-! ## Rearranged bodies -/

theorem exists_of_forall₂ {α β : Type} {R : α → β → Prop} {xs : List α} {ys : List β}
    (h : List.Forall₂ R xs ys) {x : α} (hx : x ∈ xs) : ∃ y, R x y := by
  induction h with
  | nil => cases hx
  | @cons a b xs ys hab _ ih =>
    rcases List.mem_cons.1 hx with rfl | hx
    · exact ⟨b, hab⟩
    · exact ih hx

section

variable {lines ls : List Text} {b : Block} {op : Operation} {fields : List Text}
  (hdelim : ∀ line ∈ b.body lines, Delimiter.count line = 0) (hperm : ls.Perm (b.body lines))

include hdelim hperm

theorem isTrivial_withBody_of_isTrivial (h : isTrivial lines b op fields = true) :
    isTrivial (b.withBody lines ls) b op fields = true := by
  obtain ⟨names, hnames, hnodup, hne, hfields⟩ := (isTrivial_iff hdelim).1 h
  have hcopies : ∀ line ∈ (b.body lines).filter (!Line.isBlankOrComment ·), CopiesField line :=
    fun line hline => ⟨op, _, exists_of_forall₂ hnames hline⟩
  have hplain : ∀ line ∈ b.body lines, IsPlainLine line := by
    intro line hline
    cases hblank : Line.isBlankOrComment line with
    | true => exact .inl hblank
    | false => exact .inr (hcopies line (List.mem_filter.2 ⟨hline, by rw [hblank]; rfl⟩))
  have hcopy : ∃ line ∈ b.body lines, CopiesField line := by
    cases hcode : (b.body lines).filter (!Line.isBlankOrComment ·) with
    | nil =>
      rw [hcode, List.forall₂_nil_left_iff] at hnames
      exact absurd hnames hne
    | cons line rest =>
      have hline : line ∈ (b.body lines).filter (!Line.isBlankOrComment ·) := by
        rw [hcode]
        exact List.mem_cons_self
      exact ⟨line, (List.mem_filter.1 hline).1, hcopies line hline⟩
  obtain ⟨names', hnames', hsame⟩ := List.perm_comp_forall₂ (hperm.filter _) hnames
  have hbody : b.body (b.withBody lines ls) = ls := (Block.withBody_spec hperm.length_eq).2.1
  rw [isTrivial_iff (by rw [hbody]; exact fun line hline => hdelim line (hperm.mem_iff.1 hline)),
    hbody, sourceArgument_withBody hperm hplain hcopy]
  refine ⟨names', hnames', hsame.nodup_iff.2 hnodup, ?_, ?_⟩
  · rintro rfl
    exact hne hsame.nil_eq.symm
  · intro hknown f
    rw [hsame.mem_iff, hfields hknown f]

/-- The order of the lines of a body does not matter. -/
theorem isTrivial_withBody :
    isTrivial (b.withBody lines ls) b op fields = isTrivial lines b op fields := by
  have hbody : b.body (b.withBody lines ls) = ls := (Block.withBody_spec hperm.length_eq).2.1
  rw [Bool.eq_iff_iff]
  constructor
  · intro h
    have hback := @isTrivial_withBody_of_isTrivial (b.withBody lines ls) (b.body lines) b op fields
      (by rw [hbody]; exact fun line hline => hdelim line (hperm.mem_iff.1 hline))
      (by rw [hbody]; exact hperm.symm) h
    rwa [Block.withBody_withBody hperm.length_eq, Block.withBody_body] at hback
  · exact isTrivial_withBody_of_isTrivial hdelim hperm

end

/-- **Triviality is a property of the set of statements**: without delimiters in its body, a method
is trivial when its code lines copy different fields, at least one, and all known ones. It stays so
or not when the lines of the body change places, and when known fields are listed in another order or
again. -/
theorem triviality_of_statements {lines : List Text} {b : Block} (op : Operation)
    (fields : List Text) (hdelim : ∀ line ∈ b.body lines, Delimiter.count line = 0) :
    (isTrivial lines b op fields = true ↔
      ∃ names, List.Forall₂
        (IsFieldCopy op (sourceArgument (Block.headerText lines b.header)))
        ((b.body lines).filter (!Line.isBlankOrComment ·)) names ∧
          names.Nodup ∧ names ≠ [] ∧ (fields ≠ [] → ∀ f, f ∈ names ↔ f ∈ fields)) ∧
      (∀ ls, ls.Perm (b.body lines) →
        isTrivial (b.withBody lines ls) b op fields = isTrivial lines b op fields) ∧
      ∀ fields', (∀ f, f ∈ fields' ↔ f ∈ fields) →
        isTrivial lines b op fields' = isTrivial lines b op fields :=
  ⟨isTrivial_iff hdelim, fun _ hperm => isTrivial_withBody hdelim hperm,
    fun _ h => isTrivial_congr_fields hdelim h⟩

/-- A move of two fields with a comment between, its lines in the other order. -/
theorem triviality_of_statements_moved :
    let lines : List Text := ["fn __moveinit__(out self, owned other: Self):",
      "    self.a = other.a^  # first", "    # then", "    self.b = other.b^"]
    let ls : List Text := ["    self.b = other.b^", "    # then",
      "    self.a = other.a^  # first"]
    let b : Block := ⟨0, 0, 1, 4, 0⟩
    (∀ line ∈ b.body lines, Delimiter.count line = 0) ∧ ls.Perm (b.body lines) ∧
      isTrivial lines b .move ["a", "b"] = true ∧
      isTrivial (b.withBody lines ls) b .move ["a", "b"] = true ∧
      isTrivial lines b .move ["b", "a", "b"] = true := by
  intro lines ls b
  have hdelim : ∀ line ∈ b.body lines, Delimiter.count line = 0 := by decide +kernel
  have hperm : ls.Perm (b.body lines) := by decide +kernel
  have hfields : ∀ f : Text, f ∈ (["b", "a", "b"] : List Text) ↔ f ∈ (["a", "b"] : List Text) := by
    intro f
    simp only [List.mem_cons, List.not_mem_nil, or_false]
    exact ⟨fun h => h.elim .inr id, fun h => h.elim (.inr ∘ .inl) .inl⟩
  obtain ⟨-, hrearranged, hlisted⟩ := triviality_of_statements .move ["a", "b"] hdelim
  have htrivial : isTrivial lines b .move ["a", "b"] = true := by decide +kernel
  exact ⟨hdelim, hperm, htrivial, (hrearranged ls hperm).trans htrivial,
    (hlisted _ hfields).trans htrivial⟩

end MojoLint.Lifecycle
