import MojoLint.Proofs.Docstring.Size
import MojoLint.Proofs.Edit.Insertion
import MojoLint.Proofs.Rule.Edits

/-!
# A header with its stub

The edit of a missing docstring puts the lines of a stub behind the header and changes no other
line. The header ends where it ended, so the documentation rules find the stub there and judge it:
about the header they have nothing more to say, and about the stub at most that it has no sections,
when there is nothing to list in them. For this the stub has to be deeper than the header, and it is
unless the width of its indentation wraps around (`stub_outdented`).
-/

namespace MojoLint

namespace Line

/-- The width of a run of tabs, which wraps around. -/
theorem indent_replicate_tab (n : Nat) {rest : Text}
    (h : ∀ b ∈ rest.head?, Byte.isIndent b = false) :
    indent (List.replicate n Byte.tab ++ rest) = (4 * n).toUInt32 := by
  have hfold : ∀ (k : Nat) (width : UInt32),
      (List.replicate k Byte.tab).foldl (fun n b => n + if b = Byte.tab then 4 else 1) width =
        width + (4 * k).toUInt32 := by
    intro k
    induction k with
    | zero => exact fun width => (UInt32.add_zero width).symm
    | succ k ih =>
      intro width
      have hstep : (4 * (k + 1)).toUInt32 = 4 + (4 * k).toUInt32 := by
        rw [Nat.mul_succ, Nat.add_comm]
        exact UInt32.ofNat_add 4 (4 * k)
      rw [List.replicate_succ, List.foldl_cons, ih, hstep, if_pos rfl, UInt32.add_assoc]
  have htabs : (List.replicate n Byte.tab ++ rest).takeWhile Byte.isIndent =
      List.replicate n Byte.tab := by
    rw [List.takeWhile_append_of_pos fun b hb => by rw [List.eq_of_mem_replicate hb]; rfl]
    cases rest with
    | nil => exact List.append_nil _
    | cons b rest =>
      rw [List.takeWhile_cons_of_neg (Bool.eq_false_iff.1 (h b rfl)), List.append_nil]
  rw [indent, htabs, hfold, UInt32.zero_add]

end Line

namespace Rule.Docs

open Docstring

/-- What a line declares is read off the line itself. -/
theorem Owner.at?_congr {lines lines' : List Text} {i : Nat} (h : lines[i]? = lines'[i]?) :
    Owner.at? lines i = Owner.at? lines' i := by
  unfold Owner.at? Struct.at?
  rw [h]
  cases Token.ofLine ((lines'[i]?).getD []) with
  | nil => rfl
  | cons keyword ts =>
    cases ts with
    | nil => rfl
    | cons name ts =>
      by_cases hstruct : (keyword.isIdent "struct" && name.kind == .ident) = true
      · simp only [hstruct, if_true]
      · simp only [hstruct, Bool.false_eq_true, if_false]

/-- The first line behind the header that is not blank is deeper than the header. -/
def BodyFollows (lines : List Text) (i headerEnd : Nat) : Prop :=
  ∃ next, ((lines.drop (headerEnd + 1)).dropWhile Line.isBlank).head? = some next ∧
    Line.indent ((lines[i]?).getD []) < Line.indent next

/-- Where nothing deeper follows the header, a docstring is missing that is four columns deeper. -/
theorem ownerFindings_of_not_bodyFollows {s : Source} {lines : List Text} {i headerEnd : Nat}
    {owner : Owner} (h : ¬ BodyFollows lines i headerEnd) :
    ownerFindings s lines i headerEnd owner =
      [missingFinding s lines i headerEnd (Line.indent ((lines[i]?).getD []) + 4) owner] := by
  unfold ownerFindings
  simp only
  split
  · rename_i next hnext
    rw [if_neg fun hdeeper => h ⟨next, hnext, hdeeper⟩]
  · rfl

section

variable {lines : List Text} {i headerEnd : Nat} {indent : UInt32} {u : Text}

theorem dropWhile_opening
    (h : lines[headerEnd + 1]? = some (padding indent ++ (Delimiter.triple ++ u))) :
    ((lines.drop (headerEnd + 1)).takeWhile Line.isBlank).length = 0 ∧
      ((lines.drop (headerEnd + 1)).dropWhile Line.isBlank).head? =
        some (padding indent ++ (Delimiter.triple ++ u)) := by
  obtain ⟨hlt, hget⟩ := List.getElem?_eq_some_iff.1 h
  have hblank : ¬ Line.isBlank (padding indent ++ (Delimiter.triple ++ u)) = true := by
    rw [isBlank_opening]
    exact Bool.false_ne_true
  rw [List.drop_eq_getElem_cons hlt, hget, List.takeWhile_cons_of_neg hblank,
    List.dropWhile_cons_of_neg hblank]
  exact ⟨rfl, rfl⟩

theorem bodyFollows_opening_iff
    (h : lines[headerEnd + 1]? = some (padding indent ++ (Delimiter.triple ++ u))) :
    BodyFollows lines i headerEnd ↔ Line.indent ((lines[i]?).getD []) < indent := by
  simp only [BodyFollows, (dropWhile_opening h).2, Option.some.injEq, exists_eq_left',
    indent_opening]

end

/-! ## The stub of a declaration -/

/-- What the rules have to say of the stub `doc`, put in by a finding of the rule `id`: nothing, or
that it has no sections, and then it is for a function of which it lists nothing. -/
def Passes (id doc : Text) (v : Verdict) : Prop :=
  v.isAcceptable = true ∨
    id = "MISSING_FN_DOC" ∧ v = .missingSections ∧
      ∃ (s : Signature) (indent : UInt32),
        doc = s.stub indent ∧ s.arguments = [] ∧ s.hasResult = false

/-- A stub for a declaration of the text, indented by `indent`. -/
structure StubFor (t id : Text) (indent : UInt32) (doc : Text) : Prop where
  isStub : IsStub doc
  opening : ∃ u rest, doc.lines = (padding indent ++ (Delimiter.triple ++ u)) :: rest
  short : doc.lines.length ≤ (t.lines.map List.length).sum
  passes : ∀ above below : List Text,
    Passes id doc (assess (above ++ (doc.lines ++ below)) above.length).verdict

section

variable {path t : Text} {checkDocs : Bool} {i headerEnd : Nat} {line : Text}

theorem exists_structStub (hline : t.lines[i]? = some line) {name : Text}
    (howner : Owner.at? t.lines i = some (.struct name)) (indent : UInt32) :
    ∃ doc, structStub? name indent = some doc ∧ StubFor t "MISSING_STRUCT_DOC" indent doc := by
  have hname := isName_of_struct howner
  obtain ⟨doc, hdoc⟩ : ∃ doc, structStub? name indent = some doc := by
    obtain ⟨b, w, rfl, -, -⟩ := hname
    exact ⟨_, rfl⟩
  have hlines := lines_structStub hname hdoc
  have hne : 0 < line.length := by
    apply List.length_pos_iff.2
    rintro rfl
    -- the empty line declares nothing
    simp [Owner.at?, Struct.at?, hline, Declaration.functionName?, Token.ofLine] at howner
  refine ⟨doc, hdoc, isStub_of_structStub? hname hdoc, ⟨_, [], hlines⟩, ?_, ?_⟩
  · have hle := ((List.singleton_sublist.2 (List.mem_of_getElem? hline)).map
      List.length).sum_le_sum (by simp)
    rw [List.map_singleton, List.sum_cons, List.sum_nil] at hle
    rw [hlines, List.length_singleton]
    omega
  · intro above below
    left
    rw [hlines, List.singleton_append, verdict_structLine hname]
    rfl

theorem exists_functionStub (hsize : t.length < UInt32.size) (hline : t.lines[i]? = some line)
    {name : Text} (howner : Owner.at? t.lines i = some (.function name))
    (hend : Block.headerEnd? t.lines i = some headerEnd) (indent : UInt32) :
    ∃ doc, functionStub? (Block.headerText t.lines i) indent = some doc ∧
      StubFor t "MISSING_FN_DOC" indent doc := by
  have hhead := head_of_function hsize howner
  have hfunction := functionName?_of_function howner
  rw [hline, Option.getD_some] at hfunction
  obtain ⟨s, hs⟩ :
      ∃ s, Signature.ofTokens? (Token.ofLine (Block.headerText t.lines i)) = some s := by
    obtain ⟨keyword, column, ts, htokens⟩ := hhead.ofLine
    rw [htokens]
    exact ⟨_, rfl⟩
  obtain ⟨hname, harguments⟩ := Signature.isName_of_header hhead hs
  have hlines := Signature.lines_stub indent hname harguments
  refine ⟨s.stub indent, by rw [functionStub?, hs]; rfl, .function s indent hname harguments,
    ⟨_, _, hlines⟩, ?_, ?_⟩
  · rw [hlines]
    exact length_stubLines_le (fun l hl => Text.length_lt_of_mem_lines hsize hl) hline hend
      hfunction hs indent
  · intro above below
    rw [hlines]
    rcases Signature.verdict_stub indent hname harguments above below with
      h | ⟨h, hnone, hresult⟩
    · left
      rw [h]
      rfl
    · exact .inr ⟨rfl, h, s, indent, rfl, hnone, hresult⟩

/-- The finding of a missing docstring puts in a stub. -/
theorem exists_stubFor (hsize : t.length < UInt32.size) (hline : t.lines[i]? = some line)
    {owner : Owner} (howner : Owner.at? t.lines i = some owner)
    (hend : Block.headerEnd? t.lines i = some headerEnd) (s : Source) (indent : UInt32) :
    ∃ doc, (missingFinding s t.lines i headerEnd indent owner).edits =
        stubEdits s t.lines headerEnd (some doc) ∧
      StubFor t (missingFinding s t.lines i headerEnd indent owner).id indent doc := by
  cases owner with
  | struct name =>
    obtain ⟨doc, hdoc, hstub⟩ := exists_structStub hline howner indent
    exact ⟨doc, by rw [missingFinding, hdoc]; rfl, hstub⟩
  | function name =>
    obtain ⟨doc, hdoc, hstub⟩ := exists_functionStub hsize hline howner hend indent
    exact ⟨doc, by rw [missingFinding, hdoc]; rfl, hstub⟩

theorem verdict_of_mem_qualityFindings {s : Source} {lines : List Text} {owner : Owner} {doc : Nat}
    {f : Finding} (h : f ∈ qualityFindings s lines owner doc) :
    (assess lines doc).verdict.isAcceptable = false ∧
      f.id = (breach (assess lines doc).verdict).1 := by
  unfold qualityFindings at h
  simp only at h
  split at h
  · cases h
  · rename_i hbad
    obtain rfl := List.mem_singleton.1 h
    exact ⟨Bool.eq_false_iff.2 hbad, rfl⟩

/-- The lines of a text and a stub for one of its declarations. -/
structure Documented (t : Text) (headerEnd : Nat) (doc : Text) (lines : List Text) : Prop where
  lines_eq : lines = t.lines.take (headerEnd + 1) ++ (doc.lines ++ t.lines.drop (headerEnd + 1))
  lt_length : headerEnd < t.lines.length

namespace Documented

variable {doc id : Text} {indent : UInt32} {lines : List Text}

theorem length_take (h : Documented t headerEnd doc lines) :
    (t.lines.take (headerEnd + 1)).length = headerEnd + 1 :=
  List.length_take_of_le h.lt_length

theorem length_eq (h : Documented t headerEnd doc lines) :
    lines.length = t.lines.length + doc.lines.length := by
  have := h.lt_length
  rw [h.lines_eq, List.length_append, List.length_append, h.length_take, List.length_drop]
  omega

/-- There are so few lines that the numbers of no two of them agree in 32 bits. -/
theorem length_le (h : Documented t headerEnd doc lines) (hstub : StubFor t id indent doc)
    (hsize : t.length < UInt32.size) : lines.length ≤ UInt32.size := by
  have htotal := Text.total_lines_le t
  have hshort := hstub.short
  have hlength := h.length_eq
  omega

theorem opening (h : Documented t headerEnd doc lines) (hstub : StubFor t id indent doc) :
    ∃ u, lines[headerEnd + 1]? = some (padding indent ++ (Delimiter.triple ++ u)) := by
  obtain ⟨u, rest, hdoc⟩ := hstub.opening
  refine ⟨u, ?_⟩
  rw [h.lines_eq, List.getElem?_append_right (Nat.le_of_eq h.length_take), h.length_take,
    Nat.sub_self, hdoc]
  rfl

theorem take_eq (h : Documented t headerEnd doc lines) {n : Nat} (hn : n ≤ headerEnd) :
    lines.take (n + 1) = t.lines.take (n + 1) := by
  rw [h.lines_eq, List.take_append_of_le_length (by rw [h.length_take]; omega), List.take_take,
    Nat.min_eq_left (by omega)]

theorem getElem?_eq (h : Documented t headerEnd doc lines) (hi : i ≤ headerEnd) :
    lines[i]? = t.lines[i]? := by
  rw [← List.getElem?_take_of_lt (Nat.lt_succ_self i), h.take_eq hi,
    List.getElem?_take_of_lt (Nat.lt_succ_self i)]

/-- The header declares what it declared. -/
theorem declares {new : Text} {owner : Owner} (h : Documented t headerEnd doc new.lines)
    (hdeclares : Declares (Source.ofText path t checkDocs) i headerEnd owner) :
    Declares (Source.ofText path new checkDocs) i headerEnd owner := by
  obtain ⟨⟨row, hrow, hcan⟩, howner, hend, last, hlast, hcolon⟩ := hdeclares
  rw [Source.lines_ofText] at howner hend
  have hle := (Block.headerEnd?_spec hend).1
  obtain ⟨offset, hrow'⟩ := Source.exists_row_of_take_eq (h.take_eq hle) hrow
  obtain ⟨offset', hlast'⟩ := Source.exists_row_of_take_eq (h.take_eq (Nat.le_refl _)) hlast
  refine ⟨⟨_, hrow', hcan⟩, ?_, ?_, _, hlast', hcolon⟩
  · rw [Source.lines_ofText, Owner.at?_congr (h.getElem?_eq hle), howner]
  · rw [Source.lines_ofText, h.lines_eq]
    exact Block.headerEnd?_take hend _

/-- A docstring is missing again when the stub is not deeper than the header. -/
theorem missing_again {new : Text} {owner : Owner} (h : Documented t headerEnd doc new.lines)
    (hstub : StubFor t id indent doc)
    (hdeclares : Declares (Source.ofText path t checkDocs) i headerEnd owner)
    (hshallow : ¬ Line.indent ((t.lines[i]?).getD []) < indent) :
    missingFinding (Source.ofText path new checkDocs) new.lines i headerEnd
        (Line.indent ((t.lines[i]?).getD []) + 4) owner ∈
      findings (Source.ofText path new checkDocs) := by
  have hend := hdeclares.ends
  rw [Source.lines_ofText] at hend
  obtain ⟨u, hopening⟩ := h.opening hstub
  refine mem_findings_iff.2 ⟨i, headerEnd, owner, h.declares hdeclares, ?_⟩
  rw [← h.getElem?_eq (Block.headerEnd?_spec hend).1] at hshallow ⊢
  rw [Source.lines_ofText,
    ownerFindings_of_not_bodyFollows fun hbody =>
      hshallow ((bodyFollows_opening_iff hopening).1 hbody)]
  exact List.mem_singleton_self _

/-- About the stub the rules say what its verdict is. -/
theorem exists_passes (h : Documented t headerEnd doc lines) (hstub : StubFor t id indent doc)
    {s : Source} {owner : Owner} {g : Finding}
    (hg : g ∈ qualityFindings s lines owner (headerEnd + 1)) :
    ∃ v, Passes id doc v ∧ v.isAcceptable = false ∧ g.id = (breach v).1 := by
  have hpasses := hstub.passes (t.lines.take (headerEnd + 1)) (t.lines.drop (headerEnd + 1))
  rw [← h.lines_eq, h.length_take] at hpasses
  exact ⟨_, hpasses, verdict_of_mem_qualityFindings hg⟩

end Documented

/-- The edit of a missing docstring puts its stub behind the header. -/
theorem exists_documented (path : Text) (checkDocs : Bool) (hsize : t.length < UInt32.size)
    (hlt : headerEnd < t.lines.length) {doc : Text} (hstub : IsStub doc) :
    ∃ e new, stubEdits (Source.ofText path t checkDocs) t.lines headerEnd (some doc) = [e] ∧
      Edit.applyAll t [e] = ⟨new, none⟩ ∧ Documented t headerEnd doc new.lines := by
  have hlen := Text.length_lines t
  have hfeed : ∃ d, doc = d ++ [Byte.lf] := by
    obtain ⟨pad, prose, hdoc, -⟩ := hstub.exists_prose
    refine ⟨pad ++ (Delimiter.triple ++ (prose ++ Delimiter.triple)), ?_⟩
    rw [hdoc]
    simp only [List.append_assoc]
  obtain ⟨new, happly, hlines⟩ := Edit.lines_inserted
    (e := { file := path, offset := (Source.ofText path t checkDocs).offsetOf (headerEnd + 1),
            length := 0, note := "Insert placeholder docstring",
            replacement := (if headerEnd + 1 = t.lines.length &&
              !Text.endsWith (Source.ofText path t checkDocs).text "\n"
              then Text.ofString "\n" else []) ++ doc })
    (Nat.succ_pos headerEnd) (by omega) (Traits.toNat_offsetOf path checkDocs hsize hlt) rfl rfl
    (by rw [hlen]; rfl) hfeed
  exact ⟨_, new, rfl, happly, by rw [hlines, List.append_assoc], hlt⟩

/-- The finding of a missing docstring has an edit, which puts a stub behind the header. -/
theorem exists_stub (hsize : t.length < UInt32.size) {owner : Owner}
    (hdeclares : Declares (Source.ofText path t checkDocs) i headerEnd owner) (indent : UInt32) :
    ∃ doc e new,
      (missingFinding (Source.ofText path t checkDocs) t.lines i headerEnd indent owner).edits =
        [e] ∧
      StubFor t
        (missingFinding (Source.ofText path t checkDocs) t.lines i headerEnd indent owner).id
        indent doc ∧
      Edit.applyAll t [e] = ⟨new, none⟩ ∧ Documented t headerEnd doc new.lines := by
  have howner := hdeclares.declared
  have hend := hdeclares.ends
  rw [Source.lines_ofText] at howner hend
  obtain ⟨hle, hlt⟩ := Block.headerEnd?_spec hend
  have hline : t.lines[i]? = some t.lines[i] := List.getElem?_eq_getElem (by omega)
  obtain ⟨doc, hedits, hstub⟩ :=
    exists_stubFor hsize hline howner hend (Source.ofText path t checkDocs) indent
  obtain ⟨e, new, he, happly, hdocumented⟩ :=
    exists_documented path checkDocs hsize hlt hstub.isStub
  exact ⟨doc, e, new, hedits.trans he, hstub, happly, hdocumented⟩

end

/-! ## A header that is deeper than its stub -/

theorem ofLine_structHeader {gap : Text} (hgap : ∀ b ∈ gap, Byte.isGap b = true) :
    Token.ofLine (gap ++ Text.ofString "struct S:") =
      [⟨.ident, "struct", gap.length.toUInt32⟩, ⟨.ident, "S", (gap.length + 7).toUInt32⟩,
        ⟨.punct, ":", (gap.length + 8).toUInt32⟩] := by
  have hkeyword : Token.IsName "struct" :=
    ⟨115, "truct", by decide +kernel, by decide +kernel, by decide +kernel⟩
  have hname : Token.IsName "S" := ⟨83, [], by decide +kernel, by decide +kernel, by decide +kernel⟩
  have hbytes : Text.ofString "struct S:" =
      Text.ofString "struct" ++ Byte.space :: (Text.ofString "S" ++ Text.ofString ":") := by
    decide +kernel
  have hcolon : ∀ pos, Token.scan pos (Text.ofString ":") = [⟨.punct, ":", pos.toUInt32⟩] := by
    intro pos
    have hlexeme : Token.lexeme 58 [] = (.punct, 0) := by decide +kernel
    have hbyte : Text.ofString ":" = [58] := by decide +kernel
    rw [hbyte, Token.scan_lexeme _ _ (by decide), hlexeme]
    exact congrArg (_ :: ·) (Token.scan_nil _)
  rw [Token.ofLine, Token.scan_gaps 0 hgap, hbytes, Token.scan_name _ hkeyword (by decide +kernel),
    Token.scan_gap _ _ rfl, Token.scan_name _ hname (by decide +kernel), hcolon, Nat.zero_add]
  rfl

/-- The row of a text that is one line of code. -/
theorem row_of_code {line : Text} (hcode : IsCode line) (hsplit : Line.split line = [⟨line, []⟩])
    (hsize : line.length < UInt32.size) (path : Text) (checkDocs : Bool) :
    (Source.ofText path line checkDocs).rows[0]? =
      some ⟨line, 0, false, 0, Token.ofLine line, Text.trimRight line⟩ := by
  have hflags : Exclusion.State.start.flags line = ⟨false, false, 0, 0⟩ := by
    simp only [Exclusion.State.flags, Exclusion.State.start, Exclusion.State.docAfter,
      Delimiter.count_eq_zero hcode.noQuote]
    rfl
  have hview : Token.codeOf line = Text.trimRight line := by
    have huncomment : Token.uncomment line = line :=
      List.takeWhile_eq_self_iff.2 fun b hb => bne_iff_ne.2 (hcode b hb).2
    rw [Token.codeOf_of_noQuote hcode.noQuote hsize, huncomment]
  have hline : (Line.split line)[0]? = some ⟨line, []⟩ := by
    rw [hsplit]
    rfl
  rw [Source.getElem?_rows_ofText hline, ← hview]
  change some (Source.rowOf checkDocs line 0 (Exclusion.State.start.flags line)) = _
  rw [hflags]
  cases checkDocs <;> rfl

/-- A struct header that is the whole text declares its struct, however it is indented. -/
theorem declares_indented {gap : Text} (hgap : ∀ b ∈ gap, Byte.isGap b = true)
    (hsize : gap.length + 9 < UInt32.size) (path : Text) (checkDocs : Bool) :
    (gap ++ Text.ofString "struct S:").lines = [gap ++ Text.ofString "struct S:"] ∧
      Declares (Source.ofText path (gap ++ Text.ofString "struct S:") checkDocs) 0 0
        (.struct "S") := by
  obtain ⟨hbytes, hheader, hfeed, hlength⟩ : Text.ofString "struct S:" =
        Text.ofString "struct S" ++ [58] ∧
      (∀ b ∈ Text.ofString "struct S:", Byte.isQuote b = false ∧ b ≠ Byte.hash) ∧
      Byte.lf ∉ Text.ofString "struct S:" ∧ (Text.ofString "struct S:").length = 9 := by
    decide +kernel
  have htokens := ofLine_structHeader hgap
  have hcode := (Token.isCode_of_isGap hgap).append hheader
  have hlast : (gap ++ Text.ofString "struct S:").getLast? = some 58 := by
    rw [hbytes, ← List.append_assoc, List.getLast?_concat]
  have hline : (gap ++ Text.ofString "struct S:").length < UInt32.size := by
    rw [List.length_append, hlength]
    exact hsize
  have hfeed' : Byte.lf ∉ gap ++ Text.ofString "struct S:" := by
    intro h
    rcases List.mem_append.1 h with h | h
    · cases hgap _ h
    · exact hfeed h
  have hsplit := Line.split_of_no_ending hfeed'
    (by rintro h; rw [h] at hlast; cases hlast) (by rw [hlast]; decide)
  have hlines : (gap ++ Text.ofString "struct S:").lines = [gap ++ Text.ofString "struct S:"] := by
    rw [Text.lines, hsplit]
    rfl
  have hrow := row_of_code hcode hsplit hline path checkDocs
  refine ⟨hlines, ⟨_, hrow, rfl⟩, ?_, ?_, _, hrow, ?_⟩
  · rw [Source.lines_ofText, hlines, Owner.at?, Struct.at?, List.getElem?_cons_zero,
      Option.getD_some, htokens]
    rfl
  · rw [Source.lines_ofText, hlines, Block.headerEnd?, List.drop_zero, Block.linesToColon, htokens]
    rfl
  · have hspace : ∀ b ∈ (gap ++ Text.ofString "struct S:").getLast?, Byte.isSpace b = false := by
      rw [hlast]
      rintro _ ⟨⟩
      rfl
    have hcolon : Text.ofString ":" = [58] := by decide +kernel
    rw [Text.trimRight_eq_self hspace, hbytes, ← List.append_assoc, hcolon]
    exact List.isSuffixOf_iff_suffix.2 (List.suffix_append _ [58])

/-- Where nothing deeper follows a header and four more columns wrap around, the stub is outdented,
and a docstring is missed again. -/
theorem missing_again_of_wrap {path t : Text} {checkDocs : Bool} {i headerEnd : Nat} {line : Text}
    {owner : Owner} (hsize : t.length < UInt32.size)
    (hdeclares : Declares (Source.ofText path t checkDocs) i headerEnd owner)
    (hline : t.lines[i]? = some line) (hbody : ¬ BodyFollows t.lines i headerEnd)
    (hwrap : ¬ Line.indent line < Line.indent line + 4) :
    ∃ e new,
      (missingFinding (Source.ofText path t checkDocs) t.lines i headerEnd (Line.indent line + 4)
        owner).edits = [e] ∧
      missingFinding (Source.ofText path t checkDocs) t.lines i headerEnd (Line.indent line + 4)
        owner ∈ findings (Source.ofText path t checkDocs) ∧
      Edit.applyAll t [e] = ⟨new, none⟩ ∧
      missingFinding (Source.ofText path new checkDocs) new.lines i headerEnd (Line.indent line + 4)
        owner ∈ findings (Source.ofText path new checkDocs) := by
  obtain ⟨doc, e, new, hedits, hstub, happly, hdocumented⟩ :=
    exists_stub hsize hdeclares (Line.indent line + 4)
  refine ⟨e, new, hedits, ?_, happly, ?_⟩
  · refine mem_findings_iff.2 ⟨i, headerEnd, owner, hdeclares, ?_⟩
    rw [Source.lines_ofText, ownerFindings_of_not_bodyFollows hbody, hline, Option.getD_some]
    exact List.mem_singleton_self _
  · have hagain := hdocumented.missing_again hstub hdeclares
    rw [hline, Option.getD_some] at hagain
    exact hagain hwrap

/-- A struct whose header is the whole text, behind tabs. -/
theorem missing_behind_tabs {n : Nat} {t : Text}
    (ht : t = List.replicate n Byte.tab ++ Text.ofString "struct S:") (hsize : n + 9 < UInt32.size)
    (hwrap : ¬ (4 * n).toUInt32 < (4 * n).toUInt32 + 4) (path : Text) (checkDocs : Bool) :
    t.length < UInt32.size ∧
      ∃ f ∈ findings (Source.ofText path t checkDocs), f.id = "MISSING_STRUCT_DOC" ∧
        ∃ e new, f.edits = [e] ∧ Edit.applyAll t [e] = ⟨new, none⟩ ∧
          ∃ g ∈ findings (Source.ofText path new checkDocs),
            g.id = "MISSING_STRUCT_DOC" ∧ g.line = f.line := by
  have htabs : ∀ b ∈ List.replicate n Byte.tab, Byte.isGap b = true := by
    intro b hb
    rw [List.eq_of_mem_replicate hb]
    rfl
  obtain ⟨hlines, hdeclares⟩ :=
    declares_indented htabs (by rwa [List.length_replicate]) path checkDocs
  have hlength : t.length < UInt32.size := by
    have hheader : (Text.ofString "struct S:").length = 9 := by decide +kernel
    rw [ht, List.length_append, List.length_replicate, hheader]
    exact hsize
  have hindent : Line.indent t = (4 * n).toUInt32 :=
    ht ▸ Line.indent_replicate_tab n (by decide +kernel)
  rw [← ht] at hlines hdeclares
  have hline : t.lines[0]? = some t := by rw [hlines, List.getElem?_cons_zero]
  have hbody : ¬ BodyFollows t.lines 0 0 := by
    rw [hlines]
    rintro ⟨next, hnext, -⟩
    cases hnext
  obtain ⟨e, new, hedits, hf, happly, hg⟩ :=
    missing_again_of_wrap hlength hdeclares hline hbody (by rwa [hindent])
  exact ⟨hlength, _, hf, rfl, e, new, hedits, happly, _, hg, rfl, rfl⟩

/-! ## What a stub settles -/

/-- A stub that does not settle its header: there are so many tabs in front of the header that four
more columns wrap around. -/
theorem stub_outdented :
    let t : Text := List.replicate (2 ^ 30 - 1) Byte.tab ++ Text.ofString "struct S:"
    t.length < UInt32.size ∧
      ∃ f ∈ findings (Source.ofText "a.mojo" t false), f.id = "MISSING_STRUCT_DOC" ∧
        ∃ e new, f.edits = [e] ∧ Edit.applyAll t [e] = ⟨new, none⟩ ∧
          ∃ g ∈ findings (Source.ofText "a.mojo" new false),
            g.id = "MISSING_STRUCT_DOC" ∧ g.line = f.line := by
  intro t
  have hsize : 2 ^ 30 - 1 + 9 < UInt32.size := by decide
  have hwrap : ¬ (4 * (2 ^ 30 - 1)).toUInt32 < (4 * (2 ^ 30 - 1)).toUInt32 + 4 := by decide
  exact missing_behind_tabs (Eq.refl t) hsize hwrap "a.mojo" false

end Rule.Docs

end MojoLint
