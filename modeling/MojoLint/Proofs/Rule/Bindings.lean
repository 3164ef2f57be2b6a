import MojoLint.Proofs.Balance.Lexed
import MojoLint.Proofs.Balance.Preservation
import MojoLint.Proofs.Block.Reading
import MojoLint.Proofs.Edit.Lines
import MojoLint.Proofs.Text.Delimiter
import MojoLint.Proofs.Token.Tails

/-!
# What becomes of a `let` binding

The edit of a binding writes its line anew: another keyword, no white space at the end, and a
comment there. The tokens of the line are then the old ones but for the keyword and the comment
unless the end of the line is part of a string that a later line closes, or is white space that
makes tokens (`ofLine_rebound_iff`). For the whole text the same holds of a line that the structure
scan reads as code.
-/

namespace MojoLint.Rule.Variables

open Token (scan)

/-! ## The line of a binding -/

/-- The tokens with another word at their start. -/
def withKeyword (word : Text) : List Token → List Token
  | [] => []
  | t :: ts => { t with text := word } :: ts

/-- The tokens of a line with the marker behind its text. A comment at the end of the line goes on
with it, and behind other tokens it is one of its own. -/
def marked (line : Text) (ts : List Token) : List Token :=
  match ts.getLast? with
  | some ⟨.comment, text, column⟩ =>
    ts.dropLast ++ [⟨.comment, Text.trimRight text ++ marker, column⟩]
  | _ => ts ++ [⟨.comment, marker.drop 2, ((Text.trimRight line).length + 2).toUInt32⟩]

/-- The tokens of a binding with `var` in the place of `let`, and the marker behind them. -/
def reboundTokens (line : Text) (ts : List Token) : List Token :=
  marked line (withKeyword "var" ts)

/-- The token stays what it is when the white space behind it goes and a comment follows. -/
def Bears (t : Token) : Prop := t.kind ≠ .string .unterminated ∧ ¬ t.IsBlank

instance : DecidablePred Bears := fun t =>
  inferInstanceAs (Decidable (_ ∧ ¬ (t.kind = .punct ∧ ∀ b ∈ t.text, Byte.isSpace b = true)))

theorem marked_of_comment (line : Text) (ts : List Token) (text : Text) (column : UInt32) :
    marked line (ts ++ [⟨.comment, text, column⟩]) =
      ts ++ [⟨.comment, Text.trimRight text ++ marker, column⟩] := by
  unfold marked
  rw [List.getLast?_concat]
  simp only [List.dropLast_concat]

theorem marked_of_ne_comment {ts : List Token} (h : ∀ t ∈ ts.getLast?, t.kind ≠ .comment)
    (line : Text) :
    marked line ts =
      ts ++ [⟨.comment, marker.drop 2, ((Text.trimRight line).length + 2).toUInt32⟩] := by
  unfold marked
  split
  · rename_i text column hlast
    exact absurd rfl (h _ hlast)
  · rfl

theorem isTail_marker : IsTail marker := by
  constructor
  · have hquotes : ∀ b ∈ marker, (!Byte.isQuote b) = true := List.all_eq_true.1 (by decide)
    intro b hb
    simpa using hquotes b hb
  · rintro _ ⟨⟩
    rfl

theorem scan_marker (pos : Nat) :
    scan pos marker = [⟨.comment, marker.drop 2, (pos + 2).toUInt32⟩] := by
  have hmarker : marker = [Byte.space, Byte.space] ++ Byte.hash :: marker.drop 3 := by decide
  have hgaps : ∀ b ∈ [Byte.space, Byte.space], Byte.isGap b = true := List.all_eq_true.1 rfl
  conv => lhs; rw [hmarker]
  rw [Token.scan_gaps pos hgaps, Token.scan_hash]
  rfl

section

variable {line before rest : Text}

theorem isName_let : Token.IsName "let" :=
  ⟨108, [101, 116], rfl, rfl, List.all_eq_true.1 (by decide)⟩

theorem isName_var : Token.IsName "var" :=
  ⟨118, [97, 114], rfl, rfl, List.all_eq_true.1 (by decide)⟩

/-- A keyword of three bytes behind gaps, and what follows it. -/
theorem ofLine_keyword {word rest : Text} (hword : Token.IsName word) (hlong : word.length = 3)
    (hgap : ∀ b ∈ before, Byte.isGap b = true)
    (hnext : ∀ c ∈ rest.head?, Byte.isIdentPart c = false) :
    Token.ofLine (before ++ word ++ rest) =
      ⟨.ident, word, before.length.toUInt32⟩ :: scan (before.length + 3) rest := by
  rw [Token.ofLine, List.append_assoc, Token.scan_gaps 0 hgap,
    Token.scan_long_name _ hword (by omega) hnext, hlong, Nat.zero_add]

/-- The last token of a text that does not end in white space. -/
theorem bears_of_scan {pos : Nat} {kept : Text} {init : List Token} {last : Token}
    (h : scan pos kept = init ++ [last]) (hclosed : ¬ last.endsLine)
    (hend : ∀ b ∈ kept.getLast?, Byte.isSpace b = false) : Bears last := by
  refine ⟨fun hkind => hclosed (.inr hkind), ?_⟩
  rintro ⟨-, hblank⟩
  have hlast := Token.getLast?_text_of_scan h hend
  rcases List.eq_nil_or_concat kept with rfl | ⟨front, c, rfl⟩
  · rw [Token.scan_nil] at h
    exact List.append_ne_nil_of_right_ne_nil init (List.cons_ne_nil last []) h.symm
  · rw [List.concat_eq_append, List.getLast?_concat] at hlast
    have hspace := hblank c (List.mem_of_getLast? hlast)
    rw [hend c (by rw [List.concat_eq_append]; exact List.getLast?_concat)] at hspace
    cases hspace

/-- Where the text ends in code, white space behind it is of tokens or not. -/
theorem rebound_iff_of_closed {pos : Nat} {kept blank line : Text} {first first' : Token}
    (hfirst : first.kind = .ident) (hfirst' : first'.kind = .ident)
    (hend : ∀ b ∈ kept.getLast?, Byte.isSpace b = false)
    (hblank : ∀ b ∈ blank, Byte.isSpace b = true)
    (hline : (Text.trimRight line).length = pos + kept.length)
    (hclosed : ∀ t ∈ scan pos kept, ¬ t.endsLine) :
    first' :: scan pos (kept ++ marker) = marked line (first' :: scan pos (kept ++ blank)) ↔
      ∀ t ∈ (first :: scan pos (kept ++ blank)).getLast?, Bears t := by
  rw [Token.scan_tail_of_closed isTail_marker hclosed, scan_marker,
    Token.scan_tail_of_closed (isTail_of_isSpace hblank) hclosed]
  rcases List.eq_nil_or_concat (scan (pos + kept.length) blank) with hnil | ⟨init, t, hconcat⟩
  · rw [hnil, List.append_nil]
    have hcomment : ∀ t ∈ (first' :: scan pos kept).getLast?, t.kind ≠ .comment := by
      intro t ht hkind
      rcases List.mem_cons.1 (List.mem_of_getLast? ht) with rfl | ht
      · rw [hkind] at hfirst'
        cases hfirst'
      · exact hclosed t ht (.inl hkind)
    rw [marked_of_ne_comment hcomment, hline]
    refine iff_of_true rfl ?_
    rcases List.eq_nil_or_concat (scan pos kept) with hnone | ⟨init, t, hlast⟩
    · rw [hnone]
      rintro t ⟨⟩
      show first.kind ≠ _ ∧ ¬ (first.kind = _ ∧ _)
      rw [hfirst]
      exact ⟨nofun, fun h => by cases h.1⟩
    · rw [List.concat_eq_append] at hlast
      rw [hlast, ← List.cons_append, List.getLast?_concat]
      rintro u ⟨⟩
      exact bears_of_scan hlast (hclosed t (by rw [hlast]; exact List.mem_concat_self)) hend
  · -- the white space makes tokens, and the rewritten line does not have them
    rw [List.concat_eq_append] at hconcat
    have ht : t.IsBlank := Token.isBlank_of_mem_scan hblank (hconcat ▸ List.mem_concat_self)
    have hcomment : ∀ u ∈ (first' :: (scan pos kept ++ (init ++ [t]))).getLast?,
        u.kind ≠ .comment := by
      rw [← List.append_assoc, ← List.cons_append, List.getLast?_concat]
      rintro u ⟨⟩
      rw [ht.1]
      nofun
    rw [hconcat, marked_of_ne_comment hcomment]
    apply iff_of_false
    · intro heq
      have hlength := congrArg List.length heq
      simp only [List.length_cons, List.length_append, List.length_nil] at hlength
      omega
    · intro hbears
      refine (hbears t ?_).2 ht
      rw [← List.append_assoc, ← List.cons_append]
      exact List.getLast?_concat

/-- Where the text ends in a comment, that goes on; a string that goes on is another one. -/
theorem rebound_iff_of_open {pos : Nat} {kept blank line : Text} {first first' last : Token}
    {ts : List Token} (hend : ∀ b ∈ kept.getLast?, Byte.isSpace b = false)
    (hblank : ∀ b ∈ blank, Byte.isSpace b = true) (hlast : last.endsLine)
    (hts : scan pos kept = ts ++ [last]) :
    first' :: scan pos (kept ++ marker) = marked line (first' :: scan pos (kept ++ blank)) ↔
      ∀ t ∈ (first :: scan pos (kept ++ blank)).getLast?, Bears t := by
  have htext := Token.getLast?_text_of_scan hts hend
  rw [← htext] at hend
  rw [Token.scan_tail_of_open isTail_marker hts hlast,
    Token.scan_tail_of_open (isTail_of_isSpace hblank) hts hlast, ← List.cons_append,
    ← List.cons_append, ← List.cons_append, List.getLast?_concat]
  obtain ⟨kind, text, column⟩ := last
  rcases hlast with hkind | hkind
  · obtain rfl : kind = .comment := hkind
    rw [Token.extend, Token.extend, marked_of_comment, Text.trimRight_append_blank hend hblank]
    refine iff_of_true rfl ?_
    rintro t ⟨⟩
    exact ⟨nofun, fun h => by cases h.1⟩
  · obtain rfl : kind = .string .unterminated := hkind
    apply iff_of_false
    · intro heq
      rw [marked_of_ne_comment (by rw [List.getLast?_concat]; rintro t ⟨⟩; nofun)] at heq
      have hlength := congrArg List.length heq
      simp only [List.length_cons, List.length_append, List.length_nil] at hlength
      omega
    · intro hbears
      exact (hbears _ rfl).1 rfl

/-- **The tokens of a rewritten binding.** -/
theorem ofLine_rebound_iff (hline : line = before ++ "let" ++ rest)
    (hgap : ∀ b ∈ before, Byte.isGap b = true)
    (hnext : ∀ c ∈ rest.head?, Byte.isIdentPart c = false) :
    Token.ofLine (before ++ "var" ++ (Text.trimRight rest ++ marker)) =
        reboundTokens line (Token.ofLine line) ↔
      ∀ t ∈ (Token.ofLine line).getLast?, Bears t := by
  have htrim : (Text.trimRight line).length = before.length + 3 + (Text.trimRight rest).length := by
    have ht : line = before ++ [108, 101] ++ 116 :: rest := by
      rw [hline, List.append_assoc, List.append_assoc]
      rfl
    rw [ht, Text.trimRight_append rfl]
    simp only [List.length_append, List.length_cons, List.length_nil]
    omega
  obtain ⟨blank, hblank, hspaces⟩ := Text.exists_trimRight_append rest
  have hend := @Text.isSpace_of_getLast?_trimRight rest
  generalize Text.trimRight rest = kept at hblank hend htrim
  have hnext' : ∀ c ∈ (kept ++ marker).head?, Byte.isIdentPart c = false := by
    cases kept with
    | nil =>
      rintro _ ⟨⟩
      rfl
    | cons b kept =>
      rw [hblank] at hnext
      exact hnext
  have hofLine := ofLine_keyword isName_let rfl hgap hnext
  rw [← hline, hblank] at hofLine
  rw [ofLine_keyword isName_var rfl hgap hnext', reboundTokens, hofLine, withKeyword]
  by_cases hclosed : ∀ t ∈ scan (before.length + 3) kept, ¬ t.endsLine
  · exact rebound_iff_of_closed rfl rfl hend hspaces htrim hclosed
  · have htail := Token.scan_tail (before.length + 3) kept isTail_marker
    obtain ⟨ts, last, hlast, hts, -⟩ := htail.resolve_left fun h => hclosed h.1
    exact rebound_iff_of_open hend hspaces hlast hts

/-! ## What the structure scan reads -/

theorem isWords_before {word : Text} (hgap : ∀ b ∈ before, Byte.isGap b = true)
    (hword : Token.IsName word) : IsWords (before ++ word) := by
  have hpart : ∀ {b}, Byte.isIdentPart b = true → Byte.isWordy b = true :=
    @(Byte.all (by decide))
  have hspace : ∀ {b}, Byte.isGap b = true → Byte.isWordy b = true :=
    @(Byte.all (by decide))
  exact List.forall_mem_append.2
    ⟨fun b hb => hspace (hgap b hb), fun b hb => hpart (hword.isIdentPart b hb)⟩

theorem line_words {p : Text} (hp : IsWords p) (s : Balance.Outline) (t : Text) :
    s.line (p ++ t) = s.line t := by
  have hplain : ∀ {b}, Byte.isWordy b = true → Byte.isPlain b = true :=
    @(Byte.all (by decide))
  induction p with
  | nil => rfl
  | cons b p ih =>
    obtain ⟨hb, hrest⟩ := List.forall_mem_cons.1 hp
    rw [List.cons_append, Balance.Outline.line_plain (hplain hb), ih hrest]

/-- The line of a binding leads the scan where it led it. -/
theorem line_rebound (hline : line = before ++ "let" ++ rest)
    (hgap : ∀ b ∈ before, Byte.isGap b = true) (s : Balance.Outline) :
    s.line (before ++ "var" ++ (Text.trimRight rest ++ marker)) = s.line line := by
  obtain ⟨blank, hblank, hspaces⟩ := Text.exists_trimRight_append rest
  have hquiet : Balance.Quiet marker := by
    have h := Balance.quiet_marker (.inl rfl)
    rwa [List.append_nil] at h
  have hblankQuiet : Balance.Quiet blank :=
    Balance.quiet_of_plain fun b hb => Byte.isPlain_of_isSpace (hspaces b hb)
  rw [hline, line_words (isWords_before hgap isName_var),
    line_words (isWords_before hgap isName_let), Balance.Outline.line_quiet hquiet]
  conv => rhs; rw [hblank]
  rw [Balance.Outline.line_quiet hblankQuiet]

theorem prosePart_words {p : Text} (hp : IsWords p) (t : Text) :
    Balance.prosePart true (p ++ t) = p ++ Balance.prosePart true t := by
  unfold Balance.prosePart
  rw [if_pos rfl, if_pos rfl, Delimiter.find_noQuote_append hp.noQuote]
  cases Text.find Delimiter.triple t with
  | none => rfl
  | some c =>
    simp only [Option.map_some]
    rw [List.take_append, List.take_of_length_le (by omega),
      show c + p.length + 3 - p.length = c + 3 by omega]

/-- Inside a docstring the line is prose, and another word changes it. -/
theorem prosePart_rebound_ne {rest' : Text} (hgap : ∀ b ∈ before, Byte.isGap b = true) :
    Balance.prosePart true (before ++ "var" ++ rest') ≠
      Balance.prosePart true (before ++ "let" ++ rest) := by
  rw [prosePart_words (isWords_before hgap isName_var),
    prosePart_words (isWords_before hgap isName_let), List.append_assoc, List.append_assoc]
  intro heq
  have hword := List.append_cancel_left heq
  cases List.append_inj_left hword rfl

/-- A reading with the tokens of the rewritten binding. -/
def reboundReading (line : Text) (r : Balance.Reading) : Balance.Reading :=
  { r with tokens := reboundTokens line r.tokens }

/-- How the scan reads the rewritten line. -/
theorem reading_rebound_iff (hline : line = before ++ "let" ++ rest)
    (hgap : ∀ b ∈ before, Byte.isGap b = true)
    (hnext : ∀ c ∈ rest.head?, Byte.isIdentPart c = false) (inside : Bool) :
    Balance.Reading.ofLine inside (before ++ "var" ++ (Text.trimRight rest ++ marker)) =
        reboundReading line (Balance.Reading.ofLine inside line) ↔
      inside = false ∧ ∀ t ∈ (Token.ofLine line).getLast?, Bears t := by
  cases inside with
  | true =>
    refine iff_of_false ?_ (by simp)
    intro heq
    have hprose := congrArg Balance.Reading.prose heq
    rw [hline] at hprose
    exact prosePart_rebound_ne hgap hprose
  | false =>
    rw [← ofLine_rebound_iff hline hgap hnext]
    simp [Balance.Reading.ofLine, reboundReading, Balance.prosePart, Balance.codePart?]

/-! ## The edit of a binding -/

theorem rewrites_binding {pos : Nat} {l : Line} {e : Edit} (hfeed : Byte.lf ∉ l.text)
    (hline : l.text = before ++ "let" ++ rest) (hoffset : e.offset.toNat = pos + before.length)
    (hlength : e.length.toNat = 3 + rest.length)
    (hreplacement : e.replacement = "var" ++ Text.trimRight rest ++ marker) :
    e.Rewrites pos l (before ++ "var" ++ (Text.trimRight rest ++ marker)) := by
  obtain ⟨blank, hblank, -⟩ := Text.exists_trimRight_append rest
  have hclose : marker.getLast? = some 41 := by decide
  have hmade : before ++ Text.ofString "var" ++ (Text.trimRight rest ++ marker) =
      before ++ e.replacement ++ [] := by
    rw [hreplacement, List.append_nil]
    simp only [List.append_assoc]
  refine .intro before ("let" ++ rest) [] ?_ hoffset ?_ ?_ hmade ⟨?_, ?_, ?_⟩
  · rw [hline, List.append_nil, List.append_assoc]
  · rw [hlength, List.length_append]
    rfl
  · exact List.append_ne_nil_of_left_ne_nil (List.cons_ne_nil _ _) rest
  · rw [hline, hblank, List.append_assoc] at hfeed
    have hvar : Byte.lf ∉ Text.ofString "var" := by decide
    have hmarker : Byte.lf ∉ marker := by decide
    simp only [List.mem_append, not_or] at hfeed ⊢
    exact ⟨⟨hfeed.1, hvar⟩, hfeed.2.2.1, hmarker⟩
  · exact List.append_ne_nil_of_right_ne_nil _
      (List.append_ne_nil_of_right_ne_nil _ (List.cons_ne_nil _ _))
  · rw [← List.append_assoc, List.getLast?_append, hclose]
    nofun

end

/-- **What the edit of a binding does to the tokens of a text.** It changes its own line only. What
the structure scan reads is then what it read before, with `var` in the place of `let` and the
marker at the end of the line, exactly when the line is not prose to the scan and does not end in a
string that a later line closes or in white space that makes tokens. -/
theorem lexed_rebound_iff {path t : Text} {checkDocs : Bool} {f : Finding}
    (hsize : t.length < UInt32.size) (hf : f ∈ findings (Source.ofText path t checkDocs))
    (hid : f.id = "LET_BINDING") :
    ∃ i line m e new, f.IsOn i ∧ f.edits = [e] ∧ t.lines[i]? = some line ∧
      Edit.applyAll t [e] = ⟨new, none⟩ ∧ new.lines = t.lines.set i m ∧
      (Balance.lexed new.lines = (Balance.lexed t.lines).modify i (reboundReading line) ↔
        Balance.insideAt t.lines i = false ∧ ∀ u ∈ (Token.ofLine line).getLast?, Bears u) := by
  obtain ⟨row, i, hrow, hlet, rfl⟩ := exists_letFinding hf (.inl hid)
  obtain ⟨hget, -⟩ := Source.mem_visible_iff.1 hrow
  obtain ⟨l, hl, -, -, -⟩ := Source.exists_line_of_row hget
  have hline : t.lines[i]? = some l.text := by
    rw [Text.lines, List.getElem?_map, hl]
    rfl
  have hle := Line.offsetAt_add_length_le hl
  rw [Source.getElem?_rows_ofText hl] at hget
  obtain ⟨before, rest, hbytes, hgap, hnext, hoffset, hlength, hreplacement⟩ :=
    exists_binding (s := Source.ofText path t checkDocs) (Option.some.inj hget).symm hlet (by omega)
  obtain ⟨new, happly, hlines⟩ :=
    (rewrites_binding (Line.lf_notMem hl) hbytes hoffset hlength hreplacement).applyAll_eq hl
  refine ⟨i, l.text, _, _, new, rfl, rfl, hline, happly, hlines, ?_⟩
  rw [hlines, Balance.lexed_set_eq_modify_iff hline (line_rebound hbytes hgap),
    reading_rebound_iff hbytes hgap hnext]

/-- A binding with a comment, of a string that is closed on its line. -/
theorem lexed_rebound_of_comment :
    let t : Text := "\"\"\"doc\"\"\"\n  let s: String = \"a # b\"  # why\nf(s)\n"
    let s := Source.ofText "a.mojo" t true
    t.length < UInt32.size ∧ Balance.check t = .ok () ∧
      ∃ f ∈ findings s, f.id = "LET_BINDING" ∧ ∃ i line e new, f.edits = [e] ∧
        t.lines[i]? = some line ∧ Edit.applyAll t [e] = ⟨new, none⟩ ∧
        Balance.lexed new.lines = (Balance.lexed t.lines).modify i (reboundReading line) := by
  repeat rw [Text.ofString_ofList]
  intro t s
  have hsize : t.length < UInt32.size := by decide +kernel
  have hcode : ∀ i < t.lines.length, Balance.insideAt t.lines i = false := by decide +kernel
  have hbears : ∀ line ∈ t.lines, ∀ u ∈ (Token.ofLine line).getLast?, Bears u := by
    decide +kernel
  obtain ⟨f, hf, hid⟩ : ∃ f ∈ findings s, f.id = "LET_BINDING" := by decide +kernel
  obtain ⟨i, line, m, e, new, -, hedits, hline, happly, -, hiff⟩ := lexed_rebound_iff hsize hf hid
  refine ⟨hsize, by decide +kernel, f, hf, hid, i, line, e, new, hedits, hline, happly,
    hiff.2 ⟨?_, ?_⟩⟩
  · exact hcode i (List.getElem?_eq_some_iff.1 hline).1
  · exact hbears line (List.mem_of_getElem? hline)

/-- A string that a later line closes takes in the marker: its contents change. -/
theorem string_rebound :
    let t : Text := "let x = \"\"\"\nabc\n\"\"\"\n"
    Balance.check t = .ok () ∧ ∃ f ∈ findings (Source.ofText "a.mojo" t true),
      f.id = "LET_BINDING" ∧ ∃ e ∈ f.edits, (Edit.applyAll t [e]).misfit = none ∧
        (((Balance.lexed (Edit.applyAll t [e]).text.lines)[0]?).bind fun r =>
          r.tokens.getLast?.map Token.contents) = some marker ∧
        (((Balance.lexed t.lines)[0]?).bind fun r =>
          r.tokens.getLast?.map Token.contents) = some [] ∧
        Balance.lexed (Edit.applyAll t [e]).text.lines ≠
          (Balance.lexed t.lines).modify 0 (reboundReading "let x = \"\"\"") := by
  repeat rw [Text.ofString_ofList]
  decide +kernel

end MojoLint.Rule.Variables
