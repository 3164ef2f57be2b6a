import MojoLint.Declaration.Struct
import MojoLint.Docstring.Stub
import MojoLint.Proofs.Block.Body
import MojoLint.Proofs.Text.Offsets
import MojoLint.Proofs.Token.Slices

/-!
# What a stub holds

A stub is fixed text around the names of a declaration and of its arguments, and these names are
identifiers (`IsStub`). For the arguments this is how they are read. The name is the second token of
the header text, which is put together from the code views of the header lines and lexed again:
up to the first bracket it reads like the line that declares the function (`Head`,
`head_headerText`).
-/

namespace MojoLint

/-! ## The start of a header text -/

namespace Token

theorem code_of_ident {t : Token} (h : t.kind = .ident) : t.kind ≠ .comment ∧ t.code = t.text := by
  rw [code, h]
  exact ⟨nofun, rfl⟩

theorem of_isOpener {t : Token} (h : t.isOpener = true) :
    t.kind = .punct ∧ ∃ c, t.text = [c] ∧ (c = 40 ∨ c = 91) := by
  simp only [isOpener, isPunct, Bool.or_eq_true, Bool.and_eq_true, beq_iff_eq] at h
  rcases h with ⟨hkind, htext⟩ | ⟨hkind, htext⟩
  · exact ⟨hkind, 40, htext, .inl rfl⟩
  · exact ⟨hkind, 91, htext, .inr rfl⟩

/-- An identifier at the start of a scan stands in the code view as in the line. -/
theorem codeFrom_ident {pos : Nat} {line : Text} {t : Token} {ts : List Token}
    (h : scan pos line = t :: ts) (hident : t.kind = .ident)
    (hsize : pos + line.length < UInt32.size) :
    ∃ gap rest, line = gap ++ t.text ++ rest ∧ (∀ c ∈ gap, Byte.isGap c = true) ∧
      IsName t.text ∧ (∀ c ∈ rest.head?, Byte.isIdentPart c = false) ∧
      pos + gap.length + t.text.length + rest.length < UInt32.size ∧
      ts = scan (pos + gap.length + t.text.length) rest ∧
      codeFrom pos line (t :: ts) =
        gap ++ t.text ++ codeFrom (pos + gap.length + t.text.length) rest ts := by
  obtain ⟨gap, rest, hline, hgap, hcolumn, hname, hnext, hts⟩ := scan_eq_ident_cons h hident
  obtain ⟨hcomment, hcode⟩ := code_of_ident hident
  rw [hline, List.length_append, List.length_append] at hsize
  refine ⟨gap, rest, hline, hgap, hname, hnext, by omega, hts, ?_⟩
  rw [hline, codeFrom_shown (by rw [hcolumn, Number.toNat_word (by omega)]) hcomment hcode]

theorem codeFrom_opener {pos : Nat} {line : Text} {t : Token} {ts : List Token}
    (h : scan pos line = t :: ts) (hopener : t.isOpener = true)
    (hsize : pos + line.length < UInt32.size) :
    ∃ c gap code, (c = 40 ∨ c = 91) ∧ (∀ b ∈ gap, Byte.isGap b = true) ∧
      codeFrom pos line (t :: ts) = gap ++ c :: code := by
  obtain ⟨hpunct, c, htext, hc⟩ := of_isOpener hopener
  have hlaid := laid_scan pos line
  rw [h] at hlaid
  cases hlaid with
  | @cons _ _ gap rest _ _ hline hgap hcolumn _ _ =>
    have hcode : t.code = t.text := by rw [code, hpunct]
    rw [hline, List.length_append, List.length_append] at hsize
    rw [hline, codeFrom_shown (by rw [hcolumn, Number.toNat_word (by omega)])
      (by rw [hpunct]; nofun) hcode, htext, List.append_assoc]
    exact ⟨c, gap, _, hc, hgap, rfl⟩

end Token

namespace Declaration

/-- The text starts with a keyword, a name and an opening bracket. -/
inductive Head (name : Text) : Text → Prop
  | intro {keyword gap gap' rest : Text} {c : UInt8} (keyword_isName : Token.IsName keyword)
      (gap_ne : gap ≠ []) (isGap : ∀ b ∈ gap, Byte.isGap b = true)
      (name_isName : Token.IsName name) (isGap' : ∀ b ∈ gap', Byte.isGap b = true)
      (bracket : c = 40 ∨ c = 91) : Head name (keyword ++ (gap ++ (name ++ (gap' ++ c :: rest))))

theorem Head.append {name t : Text} (h : Head name t) (u : Text) : Head name (t ++ u) := by
  cases h with
  | intro hkeyword hne hgap hname hgap' hc =>
    simp only [List.append_assoc, List.cons_append]
    exact .intro hkeyword hne hgap hname hgap' hc

/-- A head ends in a bracket, so that trimming what follows leaves it alone. -/
theorem Head.trimRight {name t : Text} (h : Head name t) : Head name (Text.trimRight t) := by
  cases h with
  | @intro keyword gap gap' rest c hkeyword hne hgap hname hgap' hc =>
    have hspace : Byte.isSpace c = false := by rcases hc with rfl | rfl <;> rfl
    have := Text.trimRight_append hspace (keyword ++ (gap ++ (name ++ gap'))) rest
    simp only [List.append_assoc] at this
    rw [this]
    exact .intro hkeyword hne hgap hname hgap' hc

/-- It starts with the keyword, so that trimming the gaps before it leaves it alone. -/
theorem Head.trimLeft {name gap t : Text} (h : Head name t)
    (hgap : ∀ b ∈ gap, Byte.isGap b = true) : Text.trimLeft (gap ++ t) = t := by
  have hspace : ∀ {c}, Byte.isIdentStart c = true → Byte.isSpace c = false :=
    @(Byte.all (by decide))
  cases h with
  | intro hkeyword =>
    obtain ⟨b, w, rfl, hstart, -⟩ := hkeyword
    rw [List.cons_append, Text.trimLeft_append (hspace hstart) fun c hc =>
      Byte.isSpace_of_isGap (hgap c hc)]

/-- The keyword and the name are the first two tokens of a head. -/
theorem Head.ofLine {name t : Text} (h : Head name t) :
    ∃ keyword column ts, Token.ofLine t = keyword :: ⟨.ident, name, column⟩ :: ts := by
  have hgapNext : ∀ {c}, Byte.isGap c = true →
      Byte.isIdentPart c = false ∧ Byte.isQuote c = false := @(Byte.all (by decide))
  cases h with
  | @intro keyword gap gap' rest c hkeyword hne hgap hname hgap' hc =>
    have hbehindKeyword : ∀ b ∈ (gap ++ (name ++ (gap' ++ c :: rest))).head?,
        Byte.isIdentPart b = false ∧ Byte.isQuote b = false := by
      obtain ⟨b, gap, rfl⟩ := List.exists_cons_of_ne_nil hne
      rintro _ ⟨⟩
      exact hgapNext (hgap _ List.mem_cons_self)
    have hbehindName : ∀ b ∈ (gap' ++ c :: rest).head?,
        Byte.isIdentPart b = false ∧ Byte.isQuote b = false := by
      cases gap' with
      | nil =>
        rintro _ ⟨⟩
        rcases hc with rfl | rfl <;> exact ⟨rfl, rfl⟩
      | cons b gap' =>
        rintro _ ⟨⟩
        exact hgapNext (hgap' _ List.mem_cons_self)
    rw [Token.ofLine, Token.scan_name 0 hkeyword hbehindKeyword, Token.scan_gaps _ hgap,
      Token.scan_name _ hname hbehindName]
    exact ⟨_, _, _, rfl⟩

/-- The line of a function is indentation and a head, and so is its code view. -/
theorem exists_head_codeOf {line name : Text} (h : functionName? line = some name)
    (hsize : line.length < UInt32.size) :
    ∃ gap t, Token.codeOf line = gap ++ t ∧ (∀ b ∈ gap, Byte.isGap b = true) ∧ Head name t := by
  unfold functionName? at h
  split at h
  · rename_i keyword named bracket ts htokens
    split at h
    · rename_i hcond
      cases h
      simp only [Token.isIdent, Bool.and_eq_true, Bool.or_eq_true, beq_iff_eq] at hcond
      obtain ⟨⟨hkeyword, hnamed⟩, hbracket⟩ := hcond
      have hkeyword : keyword.kind = .ident := hkeyword.elim And.left And.left
      have hsize : 0 + line.length < UInt32.size := by rwa [Nat.zero_add]
      obtain ⟨gap₀, rest₀, -, hgap₀, hname₀, hnext₀, hsize₀, hts₀, hcode₀⟩ :=
        Token.codeFrom_ident htokens hkeyword hsize
      obtain ⟨gap₁, rest₁, hrest₀, hgap₁, hname₁, -, hsize₁, hts₁, hcode₁⟩ :=
        Token.codeFrom_ident hts₀.symm hnamed hsize₀
      obtain ⟨c, gap₂, code, hc, hgap₂, hcode₂⟩ :=
        Token.codeFrom_opener hts₁.symm hbracket hsize₁
      have hne : gap₁ ≠ [] := by
        rintro rfl
        obtain ⟨b, w, hb, hstart, -⟩ := hname₁
        have := hnext₀ b (by rw [hrest₀, hb]; rfl)
        rw [Byte.isIdentPart_of_isIdentStart hstart] at this
        cases this
      have hspace : Byte.isSpace c = false := by rcases hc with rfl | rfl <;> rfl
      have htrim := Text.trimRight_append hspace
        (gap₀ ++ (keyword.text ++ (gap₁ ++ (named.text ++ gap₂)))) code
      simp only [List.append_assoc] at htrim
      rw [Token.codeOf, Token.codeView, htokens, hcode₀, hcode₁, hcode₂]
      simp only [List.append_assoc]
      rw [htrim]
      exact ⟨gap₀, _, rfl, hgap₀, .intro hname₀ hne hgap₁ hname₁ hgap₂ hc⟩
    · cases h
  · cases h

/-- The header text of a function is a head. -/
theorem head_headerText {lines : List Text} {i : Nat} {line name : Text}
    (hline : lines[i]? = some line) (hsize : line.length < UInt32.size)
    (h : functionName? line = some name) : Head name (Block.headerText lines i) := by
  obtain ⟨gap, t, hcode, hgap, hhead⟩ := exists_head_codeOf h hsize
  have hlast : i ≤ (Block.headerEnd? lines i).getD i := by
    cases hend : Block.headerEnd? lines i with
    | none => exact Nat.le_refl i
    | some e => exact (Block.headerEnd?_spec hend).1
  obtain ⟨n, hn⟩ : ∃ n, (Block.headerEnd? lines i).getD i + 1 - i = n + 1 :=
    ⟨(Block.headerEnd? lines i).getD i - i, by omega⟩
  obtain ⟨hi, hget⟩ := List.getElem?_eq_some_iff.1 hline
  have hdrop : lines.drop i = line :: lines.drop (i + 1) := by
    rw [List.drop_eq_getElem_cons hi, hget]
  unfold Block.headerText
  simp only [hn, hdrop, List.take_succ_cons, List.map_cons]
  obtain ⟨u, hu⟩ := Text.exists_intercalate_cons " " (Token.codeOf line)
    (((lines.drop (i + 1)).take n).map Token.codeOf)
  rw [hu, hcode, Text.trim, List.append_assoc, (hhead.append u).trimLeft hgap]
  exact (hhead.append u).trimRight

theorem behind_suffix (depth : Nat) (ts : List Token) : skipParameters.behind depth ts <:+ ts := by
  induction ts generalizing depth with
  | nil => exact List.suffix_rfl
  | cons t ts ih =>
    unfold skipParameters.behind
    split
    · exact (ih _).trans (List.suffix_cons t ts)
    · split
      · split
        · exact List.suffix_cons t ts
        · exact (ih _).trans (List.suffix_cons t ts)
      · exact (ih _).trans (List.suffix_cons t ts)

theorem skipParameters_suffix (ts : List Token) : skipParameters ts <:+ ts := by
  cases ts with
  | nil => exact List.suffix_rfl
  | cons t ts =>
    simp only [skipParameters]
    split
    · exact (behind_suffix 1 ts).trans (List.suffix_cons t ts)
    · exact List.suffix_rfl

end Declaration

theorem Struct.isName_of_at? {lines : List Text} {i : Nat} {struct : Struct}
    (h : at? lines i = some struct) : Token.IsName struct.name := by
  unfold at? at h
  split at h
  · rename_i keyword name ts htokens
    split at h
    · rename_i hident
      cases h
      simp only [Bool.and_eq_true, beq_iff_eq] at hident
      have hmem : name ∈ Token.ofLine ((lines[i]?).getD []) := by
        rw [htokens]
        exact List.mem_cons_of_mem _ List.mem_cons_self
      exact Token.isName_of_mem_scan hmem hident.2
    · cases h
  · cases h

/-! ## Stubs -/

namespace Docstring

open Token (IsName)

/-- A docstring that is put in for a declaration. -/
inductive IsStub : Text → Prop
  | function (s : Signature) (indent : UInt32) (name : IsName s.name)
      (arguments : ∀ a ∈ s.arguments, IsName a) : IsStub (s.stub indent)
  | struct (name : Text) (indent : UInt32) (isName : IsName name) :
      IsStub (padding indent ++ "\"\"\"TODO: Describe the " ++ name ++ " struct.\"\"\"\n")

/-- An argument is named by an identifier. -/
theorem exists_ident_of_mem_argumentNames {depth : Nat} {expecting : Bool} {ts : List Token}
    {name : Text} (h : name ∈ (argumentNames depth expecting ts).1) :
    ∃ t ∈ ts, t.kind = .ident ∧ t.text = name := by
  induction ts generalizing depth expecting with
  | nil => cases h
  | cons t ts ih =>
    have hlater : ∀ {d e}, name ∈ (argumentNames d e ts).1 →
        ∃ u ∈ t :: ts, u.kind = .ident ∧ u.text = name := by
      intro d e h
      obtain ⟨u, hu, hkind⟩ := ih h
      exact ⟨u, List.mem_cons_of_mem _ hu, hkind⟩
    unfold argumentNames at h
    split at h
    · exact hlater h
    · split at h
      · split at h
        · cases h
        · exact hlater h
      · split at h
        · exact hlater h
        · split at h
          · rename_i hname
            simp only [Bool.and_eq_true, beq_iff_eq] at hname
            simp only at h
            split at h
            · exact hlater h
            · rcases List.mem_cons.1 h with rfl | h
              · exact ⟨t, List.mem_cons_self, hname.1.2, rfl⟩
              · exact hlater h
          · exact hlater h

theorem isStub_of_structStub? {name doc : Text} {indent : UInt32} (hname : IsName name)
    (h : structStub? name indent = some doc) : IsStub doc := by
  unfold structStub? at h
  split at h
  · cases h
  · cases h
    exact .struct name indent hname

/-- The arguments of a signature are named by identifiers of it. -/
theorem Signature.isName_of_mem_arguments {ts : List Token} {s : Signature}
    (hs : ofTokens? ts = some s) (hident : ∀ t ∈ ts, t.kind = .ident → IsName t.text) :
    ∀ a ∈ s.arguments, IsName a := by
  intro a ha
  unfold ofTokens? at hs
  split at hs
  · rename_i keyword name rest
    cases hs
    simp only at ha
    have hsuffix := Declaration.skipParameters_suffix rest
    split at ha
    · cases ha
    · rename_i t us hskip
      split at ha
      · obtain ⟨u, hu, hkind, rfl⟩ := exists_ident_of_mem_argumentNames ha
        have hmem : u ∈ rest := hsuffix.subset (hskip ▸ List.mem_cons_of_mem _ hu)
        exact hident u (List.mem_cons_of_mem _ (List.mem_cons_of_mem _ hmem)) hkind
      · cases ha
  · cases hs

/-- The signature of a header names the declaration and its arguments by identifiers. -/
theorem Signature.isName_of_header {header name : Text} {s : Signature}
    (hhead : Declaration.Head name header) (hs : ofTokens? (Token.ofLine header) = some s) :
    IsName s.name ∧ ∀ a ∈ s.arguments, IsName a := by
  have harguments := isName_of_mem_arguments hs fun t ht hkind => Token.isName_of_mem_scan ht hkind
  obtain ⟨keyword, column, ts, htokens⟩ := hhead.ofLine
  have hname : IsName name := by
    cases hhead with
    | intro _ _ _ hname => exact hname
  rw [htokens] at hs
  cases hs
  exact ⟨hname, harguments⟩

theorem isStub_of_functionStub? {header name doc : Text} {indent : UInt32}
    (hhead : Declaration.Head name header) (h : functionStub? header indent = some doc) :
    IsStub doc := by
  obtain ⟨s, hs, rfl⟩ := Option.map_eq_some_iff.1 h
  obtain ⟨hname, harguments⟩ := Signature.isName_of_header hhead hs
  exact .function s indent hname harguments

/-! ## The bytes of a stub -/

/-- A byte of the sentences in a stub. -/
def isProse (b : UInt8) : Bool :=
  Byte.isIdentPart b || b == Byte.space || b == Byte.lf || b == Byte.dot || b == 58

theorem isProse_of_isName {name : Text} (h : IsName name) : ∀ b ∈ name, isProse b = true := by
  intro b hb
  simp [isProse, h.isIdentPart b hb]

theorem isProse_padding (indent : UInt32) : ∀ b ∈ padding indent, isProse b = true := by
  intro b hb
  rw [List.eq_of_mem_replicate hb]
  rfl

/-- Everything between the delimiters of a function stub is prose. -/
theorem Signature.isProse_sections {s : Signature} (indent : UInt32)
    (harguments : ∀ a ∈ s.arguments, IsName a) :
    ∀ b ∈ argumentSection (padding indent) s.arguments ++
      resultSection (padding indent) s.hasResult, isProse b = true := by
  have hpad := isProse_padding indent
  have hfeed : ∀ b ∈ Text.ofString "\n", isProse b = true := List.all_eq_true.1 (by decide)
  have hline : ∀ a ∈ s.arguments, ∀ b ∈ argumentLine (padding indent) a, isProse b = true := by
    intro a ha
    have hfixed : ∀ b ∈ Text.ofString "    ", isProse b = true := List.all_eq_true.1 (by decide)
    have hfixed' : ∀ b ∈ Text.ofString ": TODO.\n", isProse b = true :=
      List.all_eq_true.1 (by decide)
    simp only [argumentLine, List.forall_mem_append]
    exact ⟨⟨⟨hpad, hfixed⟩, isProse_of_isName (harguments a ha)⟩, hfixed'⟩
  have harguments : ∀ b ∈ argumentSection (padding indent) s.arguments, isProse b = true := by
    have hfixed : ∀ b ∈ Text.ofString "Args:\n", isProse b = true := List.all_eq_true.1 (by decide)
    unfold argumentSection
    split
    · nofun
    · simp only [List.forall_mem_append]
      refine ⟨⟨⟨hfeed, hpad⟩, hfixed⟩, ?_⟩
      intro b hb
      obtain ⟨a, ha, hb⟩ := List.mem_flatMap.1 hb
      exact hline a ha b hb
  have hresult : ∀ b ∈ resultSection (padding indent) s.hasResult, isProse b = true := by
    have hfixed : ∀ b ∈ Text.ofString "Returns:\n", isProse b = true :=
      List.all_eq_true.1 (by decide)
    have hfixed' : ∀ b ∈ Text.ofString "    TODO.\n", isProse b = true :=
      List.all_eq_true.1 (by decide)
    unfold resultSection
    split
    · nofun
    · simp only [List.forall_mem_append]
      exact ⟨⟨⟨⟨hfeed, hpad⟩, hfixed⟩, hpad⟩, hfixed'⟩
  exact List.forall_mem_append.2 ⟨harguments, hresult⟩

/-- **A stub is a docstring of prose**, behind spaces and with the end of its line. -/
theorem IsStub.exists_prose {doc : Text} (h : IsStub doc) :
    ∃ pad prose, doc = pad ++ (Delimiter.triple ++ (prose ++ (Delimiter.triple ++ [Byte.lf]))) ∧
      (∀ b ∈ pad, b = Byte.space) ∧ (∀ b ∈ prose, isProse b = true) ∧ 98 ∈ prose := by
  have hpad : ∀ {indent}, ∀ b ∈ padding indent, b = Byte.space := by
    intro indent b hb
    exact List.eq_of_mem_replicate hb
  have hclose : Text.ofString "\"\"\"\n" = Delimiter.triple ++ [Byte.lf] := rfl
  cases h with
  | function s indent hname harguments =>
    have hopen : Text.ofString "\"\"\"TODO: Describe " =
        Delimiter.triple ++ Text.ofString "TODO: Describe " := rfl
    have hfixed : ∀ b ∈ Text.ofString "TODO: Describe ", isProse b = true :=
      List.all_eq_true.1 (by decide)
    have hstop : ∀ b ∈ Text.ofString ".\n", isProse b = true := List.all_eq_true.1 (by decide)
    have hmem : 98 ∈ Text.ofString "TODO: Describe " := by decide
    refine ⟨padding indent, Text.ofString "TODO: Describe " ++ s.name ++ Text.ofString ".\n" ++
      (argumentSection (padding indent) s.arguments ++
        resultSection (padding indent) s.hasResult) ++ padding indent, ?_, hpad, ?_, ?_⟩
    · simp only [Signature.stub, hopen, hclose, List.append_assoc]
    · refine List.forall_mem_append.2 ⟨List.forall_mem_append.2
        ⟨?_, Signature.isProse_sections indent harguments⟩, isProse_padding indent⟩
      simp only [List.forall_mem_append]
      exact ⟨⟨hfixed, isProse_of_isName hname⟩, hstop⟩
    · simp only [List.mem_append, hmem, true_or]
  | struct name indent hname =>
    have hopen : Text.ofString "\"\"\"TODO: Describe the " =
        Delimiter.triple ++ Text.ofString "TODO: Describe the " := rfl
    have hend : Text.ofString " struct.\"\"\"\n" =
        Text.ofString " struct." ++ (Delimiter.triple ++ [Byte.lf]) := rfl
    have hfixed : ∀ b ∈ Text.ofString "TODO: Describe the ", isProse b = true :=
      List.all_eq_true.1 (by decide)
    have hstop : ∀ b ∈ Text.ofString " struct.", isProse b = true := List.all_eq_true.1 (by decide)
    have hmem : 98 ∈ Text.ofString "TODO: Describe the " := by decide
    refine ⟨padding indent, Text.ofString "TODO: Describe the " ++ name ++ Text.ofString " struct.",
      ?_, hpad, ?_, ?_⟩
    · simp only [hopen, hend, List.append_assoc]
    · simp only [List.forall_mem_append]
      exact ⟨⟨hfixed, isProse_of_isName hname⟩, hstop⟩
    · simp only [List.mem_append, hmem, true_or]

end Docstring

end MojoLint
