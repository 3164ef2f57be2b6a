import MojoLint.Proofs.Docstring.Stub
import MojoLint.Proofs.Edit.Splice
import MojoLint.Proofs.Rule.Lines
import MojoLint.Proofs.Traits.Edits

/-!
# What the edits of the rules do to a text

Every edit that a rule asks for is of one of five kinds, and each kind has its exact place in the
text, in numbers that do not wrap: the dots of a relative import (`DropsDots`), a `let` binding up
to the end of its line (`Rebinds`), a stub on the line behind a header (`Documents`), and the two
kinds about traits. What holds of all edits is read off these five (`Checker.edit_cases`).
-/

namespace MojoLint

/-- A row whose code starts with an identifier finishes no literal: it is lexed as its line. -/
theorem Source.exists_line_of_codeTokens {path t : Text} {checkDocs : Bool} {i : Nat} {row : Row}
    {u : Token} {ts : List Token} (h : (ofText path t checkDocs).rows[i]? = some row)
    (hcode : row.codeTokens = u :: ts) (hident : u.kind = .ident) :
    ∃ l us, (Line.split t)[i]? = some l ∧ row.text = l.text ∧
      row.offset = (Line.offsetAt (Line.split t) i).toUInt32 ∧
      Token.ofLine l.text = u :: (ts ++ us) := by
  obtain ⟨l, hl, htext, hoffset, htokens⟩ := exists_line_of_row h
  obtain ⟨us, hus⟩ := Token.exists_append_dropComment row.tokens
  rw [← Row.codeTokens, hcode, List.cons_append] at hus
  refine ⟨l, us, hl, htext, hoffset, ?_⟩
  rw [← hus, htokens]
  exact (Token.ofClosingLine_eq_ofLine (htokens.symm.trans hus) hident).symm

/-- The text around the bytes of a line that an edit replaces. -/
theorem Line.Cut.around {t above below before old behind : Text} {i : Nat} {l : Line} {e : Edit}
    (h : Cut t i l above below) (hbytes : l.text = before ++ old ++ behind)
    (hoffset : e.offset.toNat = offsetAt (split t) i + before.length)
    (hlength : e.length.toNat = old.length) :
    t = above ++ (before ++ (old ++ (behind ++ (l.ending ++ below)))) ∧
      e.offset.toNat = above.length + before.length ∧
      t.drop e.stop = behind ++ (l.ending ++ below) := by
  have ht : t = above ++ (before ++ (old ++ (behind ++ (l.ending ++ below)))) := by
    rw [h.bytes_eq, Line.bytes, hbytes]
    simp only [List.append_assoc]
  rw [← h.length_above] at hoffset
  refine ⟨ht, hoffset, ?_⟩
  rw [ht, ← List.append_assoc, ← List.append_assoc]
  exact List.drop_left' (by rw [Edit.stop, hoffset, hlength]; simp only [List.length_append])

namespace Rule

section

variable {path t : Text} {checkDocs : Bool} {f : Finding} {e : Edit}

/-! ## Imports -/

/-- The edit deletes dots on line `i`: only names and gaps stand before them, and something stands
behind them. -/
inductive DropsDots (t : Text) (e : Edit) : Prop
  | intro (i : Nat) (l : Line) (before dots behind : Text)
      (line : (Line.split t)[i]? = some l) (bytes : l.text = before ++ dots ++ behind)
      (plain : ∀ b ∈ before, Byte.isPlain b = true)
      (isDots : ∀ b ∈ dots, Byte.isGap b = true ∨ b = Byte.dot)
      (nonempty : dots ≠ []) (module : behind ≠ [])
      (offset : e.offset.toNat = Line.offsetAt (Line.split t) i + before.length)
      (length : e.length.toNat = dots.length) (replacement : e.replacement = [])

theorem Imports.of_isDots {u : Token} (h : isDots u = true) :
    u.text ≠ [] ∧ ∀ b ∈ u.text, b = Byte.dot := by
  simp only [isDots, Token.isPunct, Bool.or_eq_true, Bool.and_eq_true, beq_iff_eq] at h
  have hdots : ∃ n, u.text = List.replicate (n + 1) Byte.dot := by
    rcases h with ⟨-, h⟩ | ⟨-, h⟩
    · exact ⟨0, h⟩
    · exact ⟨2, h⟩
  obtain ⟨n, hn⟩ := hdots
  rw [hn]
  exact ⟨List.cons_ne_nil _ _, fun b hb => List.eq_of_mem_replicate hb⟩

theorem Imports.of_ofTokens?_relative {ts tail : List Token}
    (h : Import.ofTokens? ts = some (.relative tail)) :
    ∃ keyword next rest, ts = keyword :: next :: rest ∧ keyword.kind = .ident ∧
      isDots next = true ∧ tail = next :: rest := by
  unfold Import.ofTokens? at h
  split at h
  · rename_i keyword next rest
    split at h
    · rename_i hdots
      cases h
      simp only [Token.isIdent, Bool.and_eq_true, beq_iff_eq] at hdots
      exact ⟨keyword, next, rest, rfl, hdots.1.1, hdots.2, rfl⟩
    · split at h
      · split at h <;> cases h
      · cases h
  · cases h

/-- The tokens of an import that starts with dots: the dots lie together in its line, but for gaps
between them. -/
theorem Imports.exists_dots {line : Text} {keyword next : Token} {rest us : List Token}
    (htokens : Token.ofLine line = keyword :: next :: (rest ++ us))
    (hkeyword : keyword.kind = .ident) (hnext : isDots next = true)
    (hmodule : (next :: rest).dropWhile isDots ≠ []) :
    ∃ before dots behind, line = before ++ dots ++ behind ∧
      (∀ b ∈ before, Byte.isPlain b = true) ∧
      (∀ b ∈ dots, Byte.isGap b = true ∨ b = Byte.dot) ∧ dots ≠ [] ∧ behind ≠ [] ∧
      next.column = before.length.toUInt32 ∧
      dots.length = (((next :: rest).takeWhile isDots).flatMap Token.text).length := by
  obtain ⟨gap, rest₀, hline, hgap, -, hname, -, hts⟩ :=
    Token.scan_eq_ident_cons htokens hkeyword
  have hlaid := Token.laid_scan (0 + gap.length + keyword.text.length) rest₀
  rw [← hts] at hlaid
  rw [List.dropWhile_cons_of_pos hnext] at hmodule
  rw [List.takeWhile_cons_of_pos hnext, List.flatMap_cons, List.length_append]
  cases hlaid with
  | @cons _ _ gap₁ rest₁ _ _ hrest₀ hgap₁ hcolumn hne hlater =>
    have hsplit : rest ++ us = rest.takeWhile isDots ++ (rest.dropWhile isDots ++ us) := by
      rw [← List.append_assoc, List.takeWhile_append_dropWhile]
    rw [hsplit] at hlater
    obtain ⟨first, behind, hrest₁, hbehind, hfirst, hlength⟩ := hlater.append
    -- the dots are counted without the gaps between them, so the end of `first` may stay
    generalize hsize : ((rest.takeWhile isDots).flatMap Token.text).length = n at hlength ⊢
    have hne' : behind ≠ [] := by
      obtain ⟨u, vs, hu⟩ := List.exists_cons_of_ne_nil hmodule
      rw [hu] at hbehind
      exact hbehind.ne_nil
    refine ⟨gap ++ keyword.text ++ gap₁, next.text ++ first.take n, first.drop n ++ behind,
      ?_, ?_, ?_, by simp [hne], by simp [hne'], ?_, ?_⟩
    · rw [hline, hrest₀, hrest₁]
      simp only [List.append_assoc]
      rw [← List.append_assoc (first.take n), List.take_append_drop]
    · intro b hb
      simp only [List.mem_append] at hb
      rcases hb with (hb | hb) | hb
      · exact Byte.isPlain_of_isGap (hgap b hb)
      · exact Byte.isPlain_of_isIdentPart (hname.isIdentPart b hb)
      · exact Byte.isPlain_of_isGap (hgap₁ b hb)
    · intro b hb
      rcases List.mem_append.1 hb with hb | hb
      · exact .inr ((of_isDots hnext).2 b hb)
      · refine (hfirst b (List.mem_of_mem_take hb)).imp_right ?_
        rintro ⟨u, hu, hbu⟩
        exact (of_isDots (List.all_eq_true.1 List.all_takeWhile u hu)).2 b hbu
    · rw [hcolumn, List.length_append, List.length_append, Nat.zero_add]
    · rw [List.length_append, List.length_take_of_le hlength]

/-- Only relative imports are edited. -/
theorem Imports.exists_relative {s : Source} (hf : f ∈ findings s) (he : e ∈ f.edits) :
    ∃ row i tail, (row, i) ∈ s.visible ∧
      Import.ofTokens? row.codeTokens = some (.relative tail) ∧
      f = relativeFinding s row i tail := by
  obtain ⟨⟨row, i⟩, hrow, hf⟩ := List.mem_flatMap.1 hf
  unfold lineFindings at hf
  simp only at hf
  split at hf
  · rename_i tail htail
    exact ⟨row, i, tail, hrow, htail, List.mem_singleton.1 hf⟩
  · rcases List.mem_append.1 hf with hf | hf
    · obtain ⟨first, -, rfl⟩ := Option.map_eq_some_iff.1 (Option.mem_toList.1 hf)
      cases he
    · split at hf
      · obtain ⟨u, -, hu⟩ := List.mem_filterMap.1 hf
        split at hu
        · obtain ⟨names, -, rfl⟩ := Option.map_eq_some_iff.1 hu
          cases he
        · cases hu
      · cases hf
  · cases hf

/-- The edit of a relative import, which has a module behind its dots. -/
theorem Imports.of_mem_edits_relativeFinding {s : Source} {row : Row} {i : Nat}
    {tail : List Token} (he : e ∈ (relativeFinding s row i tail).edits) :
    tail.dropWhile isDots ≠ [] ∧ (relativeFinding s row i tail).edits = [e] ∧
      e = ⟨s.path, row.offset + (tail.head?.map Token.column).getD 0,
        ((tail.takeWhile isDots).flatMap Token.text).length.toUInt32, [],
        "Rewrite as absolute import"⟩ := by
  unfold relativeFinding at he ⊢
  simp only [Finding.onLine] at he ⊢
  split at he
  · cases he
  · rename_i hmodule
    rw [if_neg hmodule]
    obtain rfl := List.mem_singleton.1 he
    refine ⟨?_, rfl, rfl⟩
    intro hnil
    simp [hnil] at hmodule

/-- The edit of an import rule deletes the dots of a relative import. -/
theorem Imports.dropsDots (hsize : t.length < UInt32.size)
    (hf : f ∈ findings (Source.ofText path t checkDocs)) (he : e ∈ f.edits) :
    f.id = "RELATIVE_IMPORT" ∧ e.file = path ∧ DropsDots t e := by
  obtain ⟨row, i, tail, hrow, htail, rfl⟩ := exists_relative hf he
  refine ⟨rfl, ?_⟩
  obtain ⟨keyword, next, rest, hcode, hkeyword, hnext, rfl⟩ := of_ofTokens?_relative htail
  obtain ⟨l, us, hl, -, hoffset, hofLine⟩ :=
    Source.exists_line_of_codeTokens (Source.mem_visible_iff.1 hrow).1 hcode hkeyword
  obtain ⟨hmodule, -, rfl⟩ := of_mem_edits_relativeFinding he
  obtain ⟨before, dots, behind, hbytes, hplain, hdots, hne, hne', hcolumn, hlength⟩ :=
    exists_dots hofLine hkeyword hnext hmodule
  have hle := Line.offsetAt_add_length_le hl
  rw [hbytes, List.length_append, List.length_append] at hle
  refine ⟨rfl, .intro i l before dots behind hl hbytes hplain hdots hne hne' ?_ ?_ rfl⟩
  · simp only [List.head?_cons, Option.map_some, Option.getD_some, hoffset, hcolumn]
    exact Number.toNat_word_add (by omega)
  · simp only [← hlength]
    exact Number.toNat_word (by omega)

/-! ## Variables -/

/-- The edit turns the `let` at the start of line `i` into `var` and marks the line. -/
inductive Rebinds (t : Text) (e : Edit) : Prop
  | intro (i : Nat) (l : Line) (before rest : Text) (line : (Line.split t)[i]? = some l)
      (bytes : l.text = before ++ "let" ++ rest) (gaps : ∀ b ∈ before, Byte.isGap b = true)
      (offset : e.offset.toNat = Line.offsetAt (Line.split t) i + before.length)
      (length : e.length.toNat = 3 + rest.length)
      (replacement : e.replacement = "var" ++ Text.trimRight rest ++ Variables.marker)

/-- The place of the word that starts the code of a row. -/
def Variables.columnOf (row : Row) : UInt32 := (row.codeTokens.head?.map Token.column).getD 0

/-- The line of a `let` binding, and the place of its edit. -/
theorem Variables.exists_binding {s : Source} {line : Text} {pos : Nat}
    {flags : Exclusion.Flags} {row : Row}
    (hrow : row = Source.rowOf checkDocs line pos.toUInt32 flags)
    (hlet : isLetBinding row.codeTokens = true) (hsize : pos + line.length < UInt32.size) :
    ∃ before rest, line = before ++ "let" ++ rest ∧ (∀ b ∈ before, Byte.isGap b = true) ∧
      (∀ c ∈ rest.head?, Byte.isIdentPart c = false) ∧
      (letEdit s row (columnOf row)).offset.toNat = pos + before.length ∧
      (letEdit s row (columnOf row)).length.toNat = 3 + rest.length ∧
      (letEdit s row (columnOf row)).replacement =
        "var" ++ Text.trimRight rest ++ Variables.marker := by
  unfold isLetBinding at hlet
  split at hlet
  · rename_i keyword next ts hcode
    simp only [Token.isIdent, Bool.and_eq_true, beq_iff_eq] at hlet
    obtain ⟨⟨hkeyword, htext⟩, -⟩ := hlet
    have hcolumnOf : columnOf row = keyword.column := by
      rw [columnOf, hcode]
      rfl
    obtain ⟨us, hus⟩ := Token.exists_append_dropComment row.tokens
    rw [← Row.codeTokens, hcode, List.cons_append] at hus
    have hofLine : Token.ofLine line = keyword :: (next :: ts ++ us) := by
      rw [hrow] at hus
      rw [← Token.ofClosingLine_eq_ofLine hus hkeyword]
      exact hus
    obtain ⟨gap, rest, hline, hgap, hcolumn, -, hnext, -⟩ :=
      Token.scan_eq_ident_cons hofLine hkeyword
    rw [htext] at hline
    have hlen := congrArg List.length hline
    have hlet : (Text.ofString "let").length = 3 := rfl
    simp only [List.length_append, hlet] at hlen
    have hcol : keyword.column.toNat = gap.length := by
      rw [hcolumn, Nat.zero_add]
      exact Number.toNat_word (by omega)
    have hdrop : line.drop (gap.length + 3) = rest := by
      rw [hline]
      exact List.drop_left' (by rw [List.length_append, hlet])
    have hrowText : row.text = line := by rw [hrow]; rfl
    have hrowOffset : row.offset = pos.toUInt32 := by rw [hrow]; rfl
    refine ⟨gap, rest, hline, hgap, hnext, ?_, ?_, ?_⟩
    · simp only [letEdit, hcolumnOf, hrowOffset, hcolumn, Nat.zero_add]
      exact Number.toNat_word_add (by omega)
    · simp only [letEdit, hcolumnOf, hrowText, hcol]
      rw [Number.toNat_word (by omega)]
      omega
    · simp only [letEdit, hcolumnOf, hrowText, hcol, hdrop]
  · cases hlet

/-- Only `let` bindings are edited, and only their findings have this name. -/
theorem Variables.exists_letFinding {s : Source} (hf : f ∈ findings s)
    (h : f.id = "LET_BINDING" ∨ f.edits ≠ []) :
    ∃ row i, (row, i) ∈ s.visible ∧ isLetBinding row.codeTokens = true ∧
      f = letFinding s row i (columnOf row) := by
  obtain ⟨⟨row, i⟩, hrow, hf⟩ := List.mem_flatMap.1 hf
  rcases List.mem_append.1 hf with hf | hf
  · unfold letFindings at hf
    simp only at hf
    split at hf
    · rename_i hlet
      exact ⟨row, i, hrow, hlet, List.mem_singleton.1 hf⟩
    · cases hf
  · obtain ⟨hrule, hnone⟩ := of_mem_headerFindings hf
    rcases h with hid | hedits
    · have hother : Text.ofString "DEPRECATED_ARG_CONVENTION" ≠ "LET_BINDING" := by decide
      exact absurd (hrule.symm.trans hid) hother
    · exact absurd hnone hedits

/-- The edit of a variable rule rewrites a `let` binding. -/
theorem Variables.rebinds (hsize : t.length < UInt32.size)
    (hf : f ∈ findings (Source.ofText path t checkDocs)) (he : e ∈ f.edits) :
    f.id = "LET_BINDING" ∧ e.file = path ∧ Rebinds t e := by
  obtain ⟨row, i, hrow, hlet, rfl⟩ :=
    exists_letFinding hf (.inr (List.ne_nil_of_mem he))
  obtain rfl := List.mem_singleton.1 he
  refine ⟨rfl, rfl, ?_⟩
  obtain ⟨hget, -⟩ := Source.mem_visible_iff.1 hrow
  obtain ⟨l, hl, -, -, -⟩ := Source.exists_line_of_row hget
  have hle := Line.offsetAt_add_length_le hl
  rw [Source.getElem?_rows_ofText hl] at hget
  obtain ⟨before, rest, hline, hgap, -, hoffset, hlength, hreplacement⟩ :=
    exists_binding (s := Source.ofText path t checkDocs) (Option.some.inj hget).symm hlet (by omega)
  exact .intro i l before rest hl hline hgap hoffset hlength hreplacement

/-! ## Documentation -/

/-- The edit puts a stub at the start of line `j`, behind the last line in a line of its own. -/
inductive Documents (t : Text) (e : Edit) : Prop
  | intro (j : Nat) (lead doc : Text) (pos : 0 < j) (within : j ≤ (Line.split t).length)
      (offset : e.offset.toNat = Line.offsetAt (Line.split t) j) (length : e.length = 0)
      (replacement : e.replacement = lead ++ doc) (stub : Docstring.IsStub doc)
      (lead_eq : lead =
        if j = (Line.split t).length && !Text.endsWith t "\n" then Text.ofString "\n" else [])

/-- The rules that ask for a docstring. -/
def Docs.missingIds : List Text := ["MISSING_STRUCT_DOC", "MISSING_FN_DOC"]

theorem Docs.documents_of_mem_stubEdits (hsize : t.length < UInt32.size) {headerEnd : Nat}
    {stub : Option Text} (hend : headerEnd < t.lines.length)
    (hstub : ∀ doc, stub = some doc → Docstring.IsStub doc)
    (he : e ∈ stubEdits (Source.ofText path t checkDocs) t.lines headerEnd stub) :
    e.file = path ∧ Documents t e := by
  have hlen := Text.length_lines t
  obtain ⟨doc, hdoc, rfl⟩ := Option.map_eq_some_iff.1 (Option.mem_toList.1 he)
  refine ⟨rfl, .intro (headerEnd + 1) _ doc (Nat.succ_pos _) (by omega) ?_ rfl rfl
    (hstub doc hdoc) ?_⟩
  · exact Traits.toNat_offsetOf path checkDocs hsize hend
  · rw [hlen]
    rfl

theorem Docs.isName_of_struct {lines : List Text} {i : Nat} {name : Text}
    (h : Owner.at? lines i = some (.struct name)) : Token.IsName name := by
  unfold Owner.at? at h
  split at h
  · rename_i declared hstruct
    cases h
    exact Struct.isName_of_at? hstruct
  · obtain ⟨other, -, hother⟩ := Option.map_eq_some_iff.1 h
    cases hother

theorem Docs.functionName?_of_function {lines : List Text} {i : Nat} {name : Text}
    (h : Owner.at? lines i = some (.function name)) :
    Declaration.functionName? ((lines[i]?).getD []) = some name := by
  unfold Owner.at? at h
  split at h
  · cases h
  · obtain ⟨other, hname, hother⟩ := Option.map_eq_some_iff.1 h
    cases hother
    exact hname

theorem Docs.head_of_function (hsize : t.length < UInt32.size) {i : Nat} {name : Text}
    (h : Owner.at? t.lines i = some (.function name)) :
    Declaration.Head name (Block.headerText t.lines i) := by
  have hname := functionName?_of_function h
  cases hl : (Line.split t)[i]? with
  | none =>
    -- the empty text declares nothing
    simp [Text.lines, hl, Declaration.functionName?, Token.ofLine] at hname
  | some l =>
    have hline : t.lines[i]? = some l.text := by simp [Text.lines, hl]
    have hle := Line.offsetAt_add_length_le hl
    rw [hline, Option.getD_some] at hname
    exact Declaration.head_headerText hline (by omega) hname

/-- The edit of a documentation rule puts in a stub. -/
theorem Docs.documents (hsize : t.length < UInt32.size)
    (hf : f ∈ findings (Source.ofText path t checkDocs)) (he : e ∈ f.edits) :
    f.id ∈ missingIds ∧ e.file = path ∧ Documents t e := by
  obtain ⟨i, headerEnd, owner, ⟨-, howner, hend, -⟩, hf⟩ := mem_findings_iff.1 hf
  rw [Source.lines_ofText] at howner hend hf
  have hlt := (Block.headerEnd?_spec hend).2
  rcases ownerFindings_cases hf with ⟨indent, rfl⟩ | ⟨doc, -, hf⟩
  · cases owner with
    | struct name =>
      refine ⟨List.mem_cons_self, documents_of_mem_stubEdits hsize hlt ?_ he⟩
      intro doc hdoc
      exact Docstring.isStub_of_structStub? (isName_of_struct howner) hdoc
    | function name =>
      refine ⟨List.mem_cons_of_mem _ List.mem_cons_self,
        documents_of_mem_stubEdits hsize hlt ?_ he⟩
      intro doc hdoc
      exact Docstring.isStub_of_functionStub? (head_of_function hsize howner) hdoc
  · rw [(of_mem_qualityFindings hf).2.2] at he
    cases he

end

/-! ## All rules -/

/-- What an edit of the rule `id` does to the text. -/
inductive Amends (t id : Text) (e : Edit) : Prop
  | dots (id_eq : id = "RELATIVE_IMPORT") (drops : DropsDots t e)
  | binding (id_eq : id = "LET_BINDING") (rebinds : Rebinds t e)
  | stub (id_mem : id ∈ Docs.missingIds) (documents : Documents t e)
  | traits (id_mem : id ∈ Traits.ids) (declares : Traits.Declares t e)
  | removal (id_mem : id ∈ Traits.ids) (removes : Traits.Removes t e)

/-- An edit ends within the text. -/
theorem Amends.stop_le {t id : Text} {e : Edit} (h : Amends t id e) : e.stop ≤ t.length := by
  unfold Edit.stop
  cases h with
  | dots _ h =>
    obtain ⟨i, l, before, dots, behind, hl, hbytes, -, -, -, -, hoffset, hlength, -⟩ := h
    have hle := Line.offsetAt_add_length_le hl
    rw [hbytes, List.length_append, List.length_append] at hle
    omega
  | binding _ h =>
    obtain ⟨i, l, before, rest, hl, hbytes, -, hoffset, hlength, -⟩ := h
    have hlet : (Text.ofString "let").length = 3 := rfl
    have hle := Line.offsetAt_add_length_le hl
    rw [hbytes, List.length_append, List.length_append, hlet] at hle
    omega
  | stub _ h =>
    obtain ⟨j, lead, doc, -, hj, hoffset, hlength, -⟩ := h
    have hle := Line.offsetAt_le_length hj
    rw [hlength, hoffset]
    exact hle
  | traits _ h =>
    obtain ⟨i, c, l, traits, before, after, hl, hc, hoffset, hlength, -⟩ := h
    have hle := Line.offsetAt_add_length_le hl
    rw [hlength, hoffset]
    exact Nat.le_trans (Nat.add_le_add_left hc _) hle
  | removal _ h =>
    obtain ⟨first, k, stop, line, -, -, hstop, -, -, -, hend, -⟩ := h
    rw [hend]
    exact Line.offsetAt_le_length (Text.length_lines t ▸ hstop)

end Rule

namespace Checker

open Rule

variable {path t : Text} {checkDocs : Bool} {f : Finding} {e : Edit}

/-- **What every edit is**, and where. -/
theorem edit_cases (hsize : t.length < UInt32.size)
    (hf : f ∈ allFindings (Source.ofText path t checkDocs)) (he : e ∈ f.edits) :
    e.file = path ∧ Amends t f.id e := by
  have hnone : f.edits = [] → e.file = path ∧ Amends t f.id e := by
    intro h
    rw [h] at he
    cases he
  obtain ⟨family, -, hf⟩ := List.mem_flatMap.1 hf
  match family, hf with
  | .imports, hf =>
    obtain ⟨hid, hfile, hdots⟩ := Imports.dropsDots hsize hf he
    exact ⟨hfile, .dots hid hdots⟩
  | .structs, hf =>
    obtain ⟨hid, hfile, hdeclares | hremoves⟩ := Traits.declares_or_removes hsize hf he
    · exact ⟨hfile, .traits hid hdeclares⟩
    · exact ⟨hfile, .removal hid hremoves⟩
  | .variables, hf =>
    obtain ⟨hid, hfile, hrebinds⟩ := Variables.rebinds hsize hf he
    exact ⟨hfile, .binding hid hrebinds⟩
  | .gpu, hf => exact hnone (Gpu.notes hf).2
  | .docs, hf =>
    obtain ⟨hid, hfile, hdocuments⟩ := Docs.documents hsize hf he
    exact ⟨hfile, .stub hid hdocuments⟩
  | .errors, hf => exact hnone (Errors.notes hf).2
  | .performance, hf => exact hnone (Performance.notes hf).2
  | .memory, hf => exact hnone (Memory.notes hf).2

theorem edit_cases_of_check {o : Options} {text : Text} (hsize : text.length < UInt32.size)
    (hf : f ∈ (check o path text).findings) (he : e ∈ f.edits) :
    e.file = path ∧ Amends text f.id e :=
  edit_cases hsize (List.mem_filter.1 (mem_check_findings.1 hf)).1 he

theorem stop_le_of_mem_edits {o : Options} {text : Text} (hsize : text.length < UInt32.size)
    (he : e ∈ (check o path text).findings.flatMap Finding.edits) : e.stop ≤ text.length := by
  obtain ⟨f, hf, he⟩ := List.mem_flatMap.1 he
  exact (edit_cases_of_check hsize hf he).2.stop_le

/-- The number of a reported line does not wrap. -/
theorem line_of_check {o : Options} {text : Text} (hsize : text.length < UInt32.size)
    (hf : f ∈ (check o path text).findings) :
    1 ≤ f.line.toNat ∧ f.line.toNat ≤ text.lines.length := by
  obtain ⟨i, hi, hon⟩ := exists_isOn (List.mem_filter.1 (mem_check_findings.1 hf)).1
  rw [Source.length_rows] at hi
  have hlines : text.lines.length ≤ text.length := by
    rw [Text.lines, List.length_map]
    exact Line.length_split_le text
  have hline : f.line.toNat = i + 1 := by
    rw [show f.line = i.toUInt32 + (1 : Nat).toUInt32 from hon]
    exact Number.toNat_word_add (by omega)
  omega

/-- **The edits of a check fit.** Every finding is on a line of the text. Every edit is one of the
five kinds, at its exact place in the file that was checked, and ends within it; what is selected
from all of them is carried out. -/
theorem edits_fit (o : Options) (path text : Text) (hsize : text.length < UInt32.size) :
    (∀ f ∈ (check o path text).findings,
      1 ≤ f.line.toNat ∧ f.line.toNat ≤ text.lines.length ∧
      ∀ e ∈ f.edits, e.file = path ∧ Amends text f.id e ∧ e.stop ≤ text.length) ∧
    ∃ new, Edit.applyAll text
      (Edit.select ((check o path text).findings.flatMap Finding.edits)).edits = ⟨new, none⟩ := by
  constructor
  · intro f hf
    obtain ⟨hone, hlast⟩ := line_of_check hsize hf
    refine ⟨hone, hlast, ?_⟩
    intro e he
    obtain ⟨hfile, hamends⟩ := edit_cases_of_check hsize hf he
    exact ⟨hfile, hamends, hamends.stop_le⟩
  · exact ⟨_, (Edit.applyAll_select hsize fun e he => stop_le_of_mem_edits hsize he).2⟩

/-- A text with a finding of each kind that comes with edits. -/
theorem edits_fit_of_each_kind :
    let text : Text := "from ..a import b\nstruct S:\n" ++
      "  fn __copyinit__(out self, existing: Self):\n    self.x = existing.x\nlet y = 1"
    text.length < UInt32.size ∧
    (∀ id ∈ ["RELATIVE_IMPORT", "MISSING_STRUCT_DOC", "MISSING_FN_DOC", "TRAIT_ADD_COPYABLE",
        "LET_BINDING"].map Text.ofString,
      ∃ f ∈ (check .standard "a.mojo" text).findings, f.id = id ∧ f.edits ≠ []) ∧
    ∃ new, Edit.applyAll text (Edit.select
      ((check .standard "a.mojo" text).findings.flatMap Finding.edits)).edits = ⟨new, none⟩ := by
  repeat rw [Text.ofString_ofList]
  intro text
  have hsize : text.length < UInt32.size := by decide +kernel
  refine ⟨hsize, ?_, (edits_fit .standard "a.mojo" text hsize).2⟩
  simp only [mem_check_findings]
  decide +kernel

end Checker

end MojoLint
