import MojoLint.Proofs.Text.Basic
import MojoLint.Proofs.Token.Lexer
import MojoLint.Token.CodeView

/-!
# Tokens as slices of their line

The lexer loses no byte: its tokens lie in the line one behind the other, each at its column, and
what lies outside them is gap bytes (`Laid`, `laid_scan`). Everything about the place of a token
follows from that alone, so no proof behind this one opens the lexer to find out where a token
stands.
-/

namespace MojoLint.Token

/-- The tokens lie in the bytes `line`, which start at the column `pos`, one behind the other and
with nothing but gap bytes around them. -/
inductive Laid : Nat → Text → List Token → Prop
  | nil {pos : Nat} {line : Text} (gap : ∀ b ∈ line, Byte.isGap b = true) : Laid pos line []
  | cons {pos : Nat} {line gap rest : Text} {t : Token} {ts : List Token}
      (bytes : line = gap ++ t.text ++ rest) (between : ∀ b ∈ gap, Byte.isGap b = true)
      (column : t.column = (pos + gap.length).toUInt32) (nonempty : t.text ≠ [])
      (later : Laid (pos + gap.length + t.text.length) rest ts) : Laid pos line (t :: ts)

theorem Laid.cons_gap {pos : Nat} {b : UInt8} {line : Text} {ts : List Token}
    (hb : Byte.isGap b = true) (h : Laid (pos + 1) line ts) : Laid pos (b :: line) ts := by
  cases h with
  | nil gap => exact .nil (List.forall_mem_cons.2 ⟨hb, gap⟩)
  | @cons _ _ gap rest t ts bytes between column nonempty later =>
    have hpos : pos + (b :: gap).length = pos + 1 + gap.length := by
      rw [List.length_cons]
      omega
    refine .cons (by rw [bytes]; rfl) (List.forall_mem_cons.2 ⟨hb, between⟩) ?_ nonempty ?_
    · rw [hpos, column]
    · rwa [hpos]

theorem laid_nil (pos : Nat) : Laid pos [] [] := .nil nofun

/-- **The lexer loses no byte.** -/
theorem laid_scan (pos : Nat) (line : Text) : Laid pos line (scan pos line) := by
  fun_induction scan pos line with
  | case1 => exact laid_nil _
  | case2 pos b rest hgap ih => exact ih.cons_gap hgap
  | case3 pos b rest hgap kind more hlex ih =>
    have hbytes : b :: rest = [] ++ (b :: rest.take more) ++ rest.drop more := by simp
    refine .cons hbytes (List.forall_mem_nil _) rfl (List.cons_ne_nil _ _) ?_
    -- a token that would reach past the end of the line takes what there is
    by_cases hmore : more ≤ rest.length
    · have hpos : pos + ([] : Text).length + (b :: rest.take more).length = pos + more + 1 := by
        simp only [List.length_nil, List.length_cons, List.length_take]
        omega
      rwa [hpos]
    · have hnil : rest.drop more = [] := List.drop_eq_nil_of_le (by omega)
      rw [hnil] at ih ⊢
      rw [scan_nil] at ih ⊢
      exact laid_nil _

theorem laid_ofLine (line : Text) : Laid 0 line (ofLine line) := laid_scan 0 line

/-- A token is the lexeme at some byte of the line. -/
theorem exists_lexeme_of_mem_scan {pos : Nat} {line : Text} {t : Token} (h : t ∈ scan pos line) :
    ∃ b rest, b :: rest <:+ line ∧ ¬ Byte.isGap b = true ∧ t.kind = (lexeme b rest).1 ∧
      t.text = b :: rest.take (lexeme b rest).2 := by
  fun_induction scan pos line with
  | case1 => cases h
  | case2 pos b rest hgap ih =>
    obtain ⟨c, behind, hsuffix, hlexeme⟩ := ih h
    exact ⟨c, behind, hsuffix.trans (List.suffix_cons b rest), hlexeme⟩
  | case3 pos b rest hgap kind more hlex ih =>
    rcases List.mem_cons.1 h with rfl | h
    · exact ⟨b, rest, List.suffix_rfl, hgap, by rw [hlex], by rw [hlex]⟩
    · obtain ⟨c, behind, hsuffix, hlexeme⟩ := ih h
      have hdrop := (List.drop_suffix more rest).trans (List.suffix_cons b rest)
      exact ⟨c, behind, hsuffix.trans hdrop, hlexeme⟩

/-- A token is the slice of the line at its column. -/
theorem Laid.exists_slice {pos : Nat} {line : Text} {ts : List Token} (h : Laid pos line ts)
    {t : Token} (ht : t ∈ ts) :
    ∃ before after, line = before ++ t.text ++ after ∧
      t.column = (pos + before.length).toUInt32 := by
  induction h with
  | nil => cases ht
  | @cons pos line gap rest u ts bytes between column nonempty later ih =>
    rcases List.mem_cons.1 ht with rfl | ht
    · exact ⟨gap, rest, bytes, column⟩
    · obtain ⟨before, after, hrest, hcolumn⟩ := ih ht
      refine ⟨gap ++ u.text ++ before, after, ?_, ?_⟩
      · rw [bytes, hrest]
        simp only [List.append_assoc]
      · rw [hcolumn, List.length_append, List.length_append, Nat.add_assoc, Nat.add_assoc,
          Nat.add_assoc]

/-- The bytes that the first tokens take up, and the bytes of the others behind them. -/
theorem Laid.append {pos : Nat} {line : Text} {ts us : List Token} (h : Laid pos line (ts ++ us)) :
    ∃ first rest, line = first ++ rest ∧ Laid (pos + first.length) rest us ∧
      (∀ b ∈ first, Byte.isGap b = true ∨ ∃ t ∈ ts, b ∈ t.text) ∧
      (ts.flatMap Token.text).length ≤ first.length := by
  induction ts generalizing pos line with
  | nil => exact ⟨[], line, rfl, h, nofun, Nat.le_refl _⟩
  | cons t ts ih =>
    cases h with
    | @cons _ _ gap rest _ _ bytes between column nonempty later =>
      obtain ⟨first, behind, hrest, hlaid, hfirst, hlength⟩ := ih later
      refine ⟨gap ++ t.text ++ first, behind, ?_, ?_, ?_, ?_⟩
      · rw [bytes, hrest]
        simp only [List.append_assoc]
      · rw [List.length_append, List.length_append, ← Nat.add_assoc, ← Nat.add_assoc]
        exact hlaid
      · intro b hb
        rcases List.mem_append.1 hb with hb | hb
        · rcases List.mem_append.1 hb with hb | hb
          · exact .inl (between b hb)
          · exact .inr ⟨t, List.mem_cons_self, hb⟩
        · refine (hfirst b hb).imp_right ?_
          rintro ⟨u, hu, hbu⟩
          exact ⟨u, List.mem_cons_of_mem _ hu, hbu⟩
      · rw [List.flatMap_cons, List.length_append, List.length_append, List.length_append]
        omega

theorem Laid.ne_nil {pos : Nat} {line : Text} {t : Token} {ts : List Token}
    (h : Laid pos line (t :: ts)) : line ≠ [] := by
  cases h with
  | cons bytes between column nonempty later =>
    rw [bytes]
    simp [nonempty]

/-- A scan goes on behind its first token. -/
theorem scan_eq_cons {pos : Nat} {line : Text} {t : Token} {ts : List Token}
    (h : scan pos line = t :: ts) :
    ∃ gap rest, line = gap ++ t.text ++ rest ∧ (∀ c ∈ gap, Byte.isGap c = true) ∧
      t.column = (pos + gap.length).toUInt32 ∧ t.text ≠ [] ∧
      ts = scan (pos + gap.length + t.text.length) rest := by
  fun_induction scan pos line with
  | case1 => cases h
  | case2 pos b rest hgap ih =>
    obtain ⟨gap, behind, hline, hall, hcolumn, hne, hts⟩ := ih h
    have hpos : pos + (b :: gap).length = pos + 1 + gap.length := by
      rw [List.length_cons]
      omega
    refine ⟨b :: gap, behind, by rw [hline]; rfl, List.forall_mem_cons.2 ⟨hgap, hall⟩, ?_, hne, ?_⟩
    · rw [hpos, hcolumn]
    · rw [hpos, hts]
  | case3 pos b rest hgap kind more hlex ih =>
    obtain ⟨rfl, rfl⟩ := List.cons.inj h
    refine ⟨[], rest.drop more, by simp, List.forall_mem_nil _, rfl, List.cons_ne_nil _ _, ?_⟩
    by_cases hmore : more ≤ rest.length
    · rw [List.length_cons, List.length_take_of_le hmore]
      rfl
    · rw [List.drop_eq_nil_of_le (by omega), scan_nil, scan_nil]

/-! ## Identifiers -/

/-- A letter or underscore, and behind it letters, digits and underscores. -/
def IsName (t : Text) : Prop :=
  ∃ b w, t = b :: w ∧ Byte.isIdentStart b = true ∧ ∀ c ∈ w, Byte.isIdentPart c = true

theorem IsName.isIdentPart {t : Text} (h : IsName t) : ∀ b ∈ t, Byte.isIdentPart b = true := by
  obtain ⟨b, w, rfl, hstart, hw⟩ := h
  exact List.forall_mem_cons.2 ⟨Byte.isIdentPart_of_isIdentStart hstart, hw⟩

theorem lexeme_ident {b : UInt8} {rest : Text} (h : (lexeme b rest).1 = .ident) :
    Byte.isIdentStart b = true ∧ (lexeme b rest).2 = (rest.takeWhile Byte.isIdentPart).length := by
  unfold lexeme at h ⊢
  by_cases hhash : b = Byte.hash
  · simp [hhash] at h
  · rw [if_neg hhash] at h ⊢
    cases hl : literal? (b :: rest) with
    | some pair => simp [hl] at h
    | none =>
      simp only [hl] at h ⊢
      by_cases hident : Byte.isIdentStart b = true
      · simp [hident]
      · rw [if_neg hident] at h
        split at h <;> cases h

/-- An identifier at the start of a scan is a name that the next byte does not go on. -/
theorem scan_eq_ident_cons {pos : Nat} {line : Text} {t : Token} {ts : List Token}
    (h : scan pos line = t :: ts) (hident : t.kind = .ident) :
    ∃ gap rest, line = gap ++ t.text ++ rest ∧ (∀ c ∈ gap, Byte.isGap c = true) ∧
      t.column = (pos + gap.length).toUInt32 ∧ IsName t.text ∧
      (∀ c ∈ rest.head?, Byte.isIdentPart c = false) ∧
      ts = scan (pos + gap.length + t.text.length) rest := by
  fun_induction scan pos line with
  | case1 => cases h
  | case2 pos b rest hgap ih =>
    obtain ⟨gap, behind, hline, hall, hcolumn, hname, hnext, hts⟩ := ih h
    have hpos : pos + (b :: gap).length = pos + 1 + gap.length := by
      rw [List.length_cons]
      omega
    refine ⟨b :: gap, behind, by rw [hline]; rfl, List.forall_mem_cons.2 ⟨hgap, hall⟩, ?_, hname,
      hnext, ?_⟩
    · rw [hpos, hcolumn]
    · rw [hpos, hts]
  | case3 pos b rest hgap kind more hlex ih =>
    simp only [List.cons.injEq] at h
    obtain ⟨rfl, rfl⟩ := h
    obtain rfl : kind = .ident := hident
    obtain ⟨hstart, hmore⟩ := lexeme_ident (by rw [hlex])
    obtain rfl : more = (rest.takeWhile Byte.isIdentPart).length := by rw [← hmore, hlex]
    rw [Text.take_length_takeWhile, Text.drop_length_takeWhile]
    refine ⟨[], rest.dropWhile Byte.isIdentPart, ?_, List.forall_mem_nil _, rfl,
      ⟨b, _, rfl, hstart, List.all_eq_true.1 List.all_takeWhile⟩, ?_, ?_⟩
    · simp
    · intro c hc
      have := List.head?_dropWhile_not Byte.isIdentPart rest
      rw [Option.mem_def.1 hc] at this
      simpa using this
    · rfl

/-- The bytes of an identifier are letters, digits and underscores. -/
theorem isName_of_mem_scan {pos : Nat} {line : Text} {t : Token} (h : t ∈ scan pos line)
    (hident : t.kind = .ident) : IsName t.text := by
  obtain ⟨b, rest, -, -, hkind, htext⟩ := exists_lexeme_of_mem_scan h
  obtain ⟨hstart, hmore⟩ := lexeme_ident (hkind ▸ hident)
  rw [htext, hmore, Text.take_length_takeWhile]
  exact ⟨b, _, rfl, hstart, List.all_eq_true.1 List.all_takeWhile⟩

/-- No literal starts with a name that no quote follows. -/
theorem literal?_of_isName {name rest : Text} (h : IsName name)
    (hnext : ∀ c ∈ rest.head?, Byte.isIdentPart c = false ∧ Byte.isQuote c = false) :
    literal? (name ++ rest) = none := by
  have hquote : ∀ {c}, Byte.isIdentPart c = true → Byte.isQuote c = false :=
    @(Byte.all (by decide))
  have hletter : ∀ {c}, Byte.isIdentPart c = false → Byte.isLiteralLetter c = false :=
    @(Byte.all (by decide))
  obtain ⟨b, w, rfl, hstart, hw⟩ := h
  -- the byte behind at most two letters: one of the name, or the one behind it
  have hhead : ∀ c ∈ ((b :: w ++ rest).drop
      (((b :: w ++ rest).take 2).takeWhile Byte.isLiteralLetter).length).head?,
      Byte.isQuote c = false := by
    have hb : Byte.isQuote b = false := hquote (Byte.isIdentPart_of_isIdentStart hstart)
    cases w with
    | nil =>
      cases rest with
      | nil => by_cases h : Byte.isLiteralLetter b = true <;> simp [h, hb]
      | cons c rest =>
        obtain ⟨hpart, hc⟩ := hnext c rfl
        by_cases h : Byte.isLiteralLetter b = true <;> simp [h, hb, hc, hletter hpart]
    | cons d w =>
      have hd : Byte.isQuote d = false := hquote (hw d List.mem_cons_self)
      by_cases h : Byte.isLiteralLetter b = true
      · by_cases h' : Byte.isLiteralLetter d = true
        · cases w with
          | nil =>
            intro c hc
            exact (hnext c (by simpa [h, h'] using hc)).2
          | cons x w => simp [h, h', hquote (hw x (by simp))]
        · simp [h, h', hd]
      · simp [h, hb]
  unfold literal?
  simp only
  split
  · rfl
  · rename_i q after hdrop
    rw [hhead q (by rw [hdrop]; rfl)]
    rfl

theorem scan_gaps (pos : Nat) {gap : Text} (h : ∀ b ∈ gap, Byte.isGap b = true) (rest : Text) :
    scan pos (gap ++ rest) = scan (pos + gap.length) rest := by
  induction gap generalizing pos with
  | nil => rfl
  | cons b gap ih =>
    rw [List.cons_append, scan_gap pos _ (h b List.mem_cons_self),
      ih _ fun c hc => h c (List.mem_cons_of_mem _ hc), List.length_cons, Nat.add_assoc,
      Nat.add_comm 1]

theorem scan_of_isName (pos : Nat) {name rest : Text} (h : IsName name)
    (hliteral : literal? (name ++ rest) = none)
    (hnext : ∀ c ∈ rest.head?, Byte.isIdentPart c = false) :
    scan pos (name ++ rest) =
      ⟨.ident, name, pos.toUInt32⟩ :: scan (pos + name.length) rest := by
  have hgap : ∀ {c}, Byte.isIdentStart c = true → ¬ Byte.isGap c = true :=
    @(Byte.all (by decide))
  have hhash : ∀ {c}, Byte.isIdentStart c = true → ¬ c = Byte.hash :=
    @(Byte.all (by decide))
  obtain ⟨b, w, rfl, hstart, hw⟩ := h
  have hwhile : (w ++ rest).takeWhile Byte.isIdentPart = w := by
    rw [List.takeWhile_append_of_pos hw]
    cases rest with
    | nil => simp
    | cons c rest => simp [hnext c rfl]
  have hlex : lexeme b (w ++ rest) = (.ident, w.length) := by
    rw [lexeme, if_neg (hhash hstart), ← List.cons_append, hliteral]
    simp only [hstart, if_true, hwhile]
  rw [List.cons_append, scan_lexeme pos _ (hgap hstart), hlex, List.take_left, List.drop_left,
    List.length_cons, Nat.add_assoc]

/-- A name is lexed as one token. -/
theorem scan_name (pos : Nat) {name rest : Text} (h : IsName name)
    (hnext : ∀ c ∈ rest.head?, Byte.isIdentPart c = false ∧ Byte.isQuote c = false) :
    scan pos (name ++ rest) =
      ⟨.ident, name, pos.toUInt32⟩ :: scan (pos + name.length) rest :=
  scan_of_isName pos h (literal?_of_isName h hnext) fun c hc => (hnext c hc).1

/-- No literal starts with a name of more than two bytes. -/
theorem literal?_of_two_lt {name : Text} (h : IsName name) (hlong : 2 < name.length)
    (rest : Text) : literal? (name ++ rest) = none := by
  have hquote : ∀ {c}, Byte.isIdentPart c = true → Byte.isQuote c = false :=
    @(Byte.all (by decide))
  have hletters : ((name ++ rest).take 2).takeWhile Byte.isLiteralLetter <+: name := by
    refine (List.takeWhile_prefix _).trans ?_
    rw [List.take_append_of_le_length (Nat.le_of_lt hlong)]
    exact List.take_prefix 2 name
  have hle : (((name ++ rest).take 2).takeWhile Byte.isLiteralLetter).length ≤ 2 :=
    Nat.le_trans (List.takeWhile_prefix _).length_le (List.length_take_le 2 _)
  unfold literal?
  simp only
  -- the byte behind the letters still is one of the name
  rw [List.drop_append_of_le_length hletters.length_le]
  cases hdrop : name.drop (((name ++ rest).take 2).takeWhile Byte.isLiteralLetter).length with
  | nil =>
    rw [List.drop_eq_nil_iff] at hdrop
    omega
  | cons q after =>
    have hq := hquote (h.isIdentPart q (List.mem_of_mem_drop (hdrop ▸ List.mem_cons_self)))
    simp only [List.cons_append, hq, Bool.false_eq_true, if_false]

/-- A name of more than two bytes is lexed as one token, also in front of a quote. -/
theorem scan_long_name (pos : Nat) {name rest : Text} (h : IsName name) (hlong : 2 < name.length)
    (hnext : ∀ c ∈ rest.head?, Byte.isIdentPart c = false) :
    scan pos (name ++ rest) =
      ⟨.ident, name, pos.toUInt32⟩ :: scan (pos + name.length) rest :=
  scan_of_isName pos h (literal?_of_two_lt h hlong rest) hnext

/-- Bytes behind a long name go on with it as far as they can. -/
theorem scan_long_name_append (pos : Nat) {name : Text} (h : IsName name) (hlong : 2 < name.length)
    (rest : Text) :
    ∃ pos', scan pos (name ++ rest) =
      ⟨.ident, name ++ rest.takeWhile Byte.isIdentPart, pos.toUInt32⟩ ::
        scan pos' (rest.dropWhile Byte.isIdentPart) := by
  have hname : IsName (name ++ rest.takeWhile Byte.isIdentPart) := by
    obtain ⟨b, w, rfl, hstart, hw⟩ := h
    refine ⟨b, w ++ rest.takeWhile Byte.isIdentPart, rfl, hstart, ?_⟩
    exact List.forall_mem_append.2 ⟨hw, List.all_eq_true.1 List.all_takeWhile⟩
  have hnext : ∀ c ∈ (rest.dropWhile Byte.isIdentPart).head?, Byte.isIdentPart c = false := by
    intro c hc
    have hhead := List.head?_dropWhile_not Byte.isIdentPart rest
    rw [Option.mem_def.1 hc] at hhead
    simpa using hhead
  have hlong' : 2 < (name ++ rest.takeWhile Byte.isIdentPart).length := by
    rw [List.length_append]
    omega
  have hscan := scan_long_name pos hname hlong' hnext
  rw [List.append_assoc, List.takeWhile_append_dropWhile] at hscan
  exact ⟨_, hscan⟩

/-! ## Lines that finish a literal -/

/-- A token of a line that finishes a literal is the slice at its column as well. -/
theorem exists_slice_of_mem_ofClosingLine {line : Text} {closed : Nat} {t : Token}
    (h : t ∈ ofClosingLine line closed) :
    ∃ before after, line = before ++ t.text ++ after ∧ t.column = before.length.toUInt32 := by
  unfold ofClosingLine at h
  split at h
  · simpa using (laid_ofLine line).exists_slice h
  · rename_i hclosed
    rcases List.mem_cons.1 h with rfl | h
    · -- the tail of the literal, without the indentation before it
      generalize hn : ((line.take closed).takeWhile Byte.isIndent).length = n
      have hle : n ≤ (line.take closed).length := hn ▸ (List.takeWhile_prefix _).length_le
      refine ⟨(line.take closed).take n, line.drop closed, ?_, ?_⟩
      · simp only [tailOf, hn, List.take_append_drop]
      · simp only [tailOf, hn, List.length_take_of_le hle]
    · obtain ⟨before, after, hline, hcolumn⟩ := (laid_scan closed (line.drop closed)).exists_slice h
      refine ⟨line.take closed ++ before, after, ?_, ?_⟩
      · rw [List.append_assoc, List.append_assoc, ← List.append_assoc before, ← hline,
          List.take_append_drop]
      · have hlen : (line.take closed).length = closed := by
          rw [List.length_take]
          omega
        rw [hcolumn, List.length_append, hlen]

/-- A line whose first token is an identifier is lexed as it stands. -/
theorem ofClosingLine_eq_ofLine {line : Text} {closed : Nat} {t : Token} {ts : List Token}
    (h : ofClosingLine line closed = t :: ts) (hident : t.kind = .ident) :
    ofClosingLine line closed = ofLine line := by
  unfold ofClosingLine at h ⊢
  split
  · rfl
  · rename_i hclosed
    rw [if_neg hclosed] at h
    cases h
    cases hident

/-! ## The code view -/

/-- The code view of a token and of what follows it. -/
theorem codeFrom_cons {pos : Nat} {gap rest : Text} {t : Token} {ts : List Token}
    (hcolumn : t.column.toNat = pos + gap.length) :
    codeFrom pos (gap ++ t.text ++ rest) (t :: ts) =
      if t.kind = .comment then gap
      else gap ++ t.code ++ codeFrom (pos + gap.length + t.text.length) rest ts := by
  have hgap : t.column.toNat - pos = gap.length := by omega
  have hafter : t.column.toNat + t.text.length - pos = (gap ++ t.text).length := by
    rw [List.length_append]
    omega
  have htake : (gap ++ t.text ++ rest).take gap.length = gap := by
    rw [List.append_assoc, List.take_left]
  rw [codeFrom]
  simp only [hgap, hafter, List.drop_left, htake]
  rw [hcolumn]

/-- Up to a token that is neither a string nor a comment, the code view is the line. -/
theorem codeFrom_shown {pos : Nat} {gap rest : Text} {t : Token} {ts : List Token}
    (hcolumn : t.column.toNat = pos + gap.length) (hcomment : t.kind ≠ .comment)
    (hcode : t.code = t.text) :
    codeFrom pos (gap ++ t.text ++ rest) (t :: ts) =
      gap ++ t.text ++ codeFrom (pos + gap.length + t.text.length) rest ts := by
  rw [codeFrom_cons hcolumn, if_neg hcomment, hcode]

/-- Only a comment at the end is dropped. -/
theorem dropComment_spec (ts : List Token) :
    dropComment ts = ts ∨ ∃ comment, comment.kind = .comment ∧ ts = dropComment ts ++ [comment] := by
  unfold dropComment
  split
  · rename_i t hlast
    split
    · rename_i hcomment
      obtain ⟨init, rfl⟩ := List.getLast?_eq_some_iff.1 hlast
      exact .inr ⟨t, hcomment, by rw [List.dropLast_concat]⟩
    · exact .inl rfl
  · exact .inl rfl

theorem exists_append_dropComment (ts : List Token) : ∃ us, ts = dropComment ts ++ us := by
  rcases dropComment_spec ts with h | ⟨comment, -, h⟩
  · exact ⟨[], by rw [List.append_nil, h]⟩
  · exact ⟨[comment], h⟩

end MojoLint.Token
