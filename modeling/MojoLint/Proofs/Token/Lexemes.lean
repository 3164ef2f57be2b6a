import MojoLint.Proofs.Token.Tails

/-!
# What the lexer takes for a token

Which bytes are a token depends on the bytes behind them, and on few of these: a name or a number
ends where the next byte does not go on, a sign where no longer operator stands, and a literal where
its quotes come again. `IsLexeme` says this for every kind of token but comments. What the lexer
finds is a lexeme (`isLexeme_lexeme`), and a lexeme is what the lexer finds (`IsLexeme.scan_eq`), so
no proof behind this one opens the lexer to find out what a token is.
-/

namespace MojoLint

/-- A byte that starts a sign: no gap, and nothing that starts another kind of token. -/
def Byte.startsSign (b : UInt8) : Bool :=
  !(b == hash || isGap b || isQuote b || isIdentStart b || isDigit b)

namespace Token

/-! ## Literals -/

/-- What opens a literal: at most two letters, and one quote or three. -/
structure IsOpening (letters : Text) (q : UInt8) (n : Nat) : Prop where
  short : letters.length ≤ 2
  isLetter : ∀ c ∈ letters, Byte.isLiteralLetter c = true
  isQuote : Byte.isQuote q = true
  count : n = 1 ∨ n = 3

/-- What ends a literal that is opened by `n` quotes: they come again, or the line ends. -/
def closingOf (closed : Bool) (n : Nat) (q : UInt8) : Text :=
  if closed then List.replicate n q else []

/-- The extent of a literal on its line. -/
def extentOf (closed : Bool) : Extent := if closed then .complete else .unterminated

section

variable {letters : Text} {q : UInt8} {n : Nat}

theorem IsOpening.pos (h : IsOpening letters q n) : 0 < n := by
  rcases h.count with rfl | rfl <;> decide

theorem IsOpening.letterCount_eq (h : IsOpening letters q n) (z : Text) :
    letterCount (letters ++ q :: z) = letters.length := by
  have hq := not_isLiteralLetter_of_isQuote h.isQuote
  have hshort := h.short
  have hletters := h.isLetter
  unfold letterCount
  match letters with
  | [] => simp [hq]
  | [a] => simp [hq, hletters a]
  | [a, b] => simp [hletters a, hletters b]
  | _ :: _ :: _ :: _ => simp at hshort

theorem IsOpening.exists_cons (h : IsOpening letters q n) :
    ∃ b w, letters ++ List.replicate n q = b :: w ∧
      (Byte.isLiteralLetter b = true ∨ Byte.isQuote b = true) := by
  obtain ⟨b, w, hbytes⟩ : ∃ b w, letters ++ List.replicate n q = b :: w := by
    apply List.exists_cons_of_ne_nil
    have hpos := h.pos
    simp only [Ne, List.append_eq_nil_iff, List.replicate_eq_nil_iff]
    omega
  have hmem : b ∈ letters ++ List.replicate n q := hbytes ▸ List.mem_cons_self
  refine ⟨b, w, hbytes, (List.mem_append.1 hmem).imp (h.isLetter b) fun hb => ?_⟩
  exact isQuote_of_mem_replicate h.isQuote n b hb

/-- The literal that quotes open, in front of anything. -/
theorem IsOpening.literal?_eq (h : IsOpening letters q n) {z : Text}
    (hsingle : n = 1 → [q, q].isPrefixOf z = false) :
    literal? (letters ++ (List.replicate n q ++ z)) =
      some (letters.length + n + (untilClosed (List.replicate n q) z).1,
        extentOf (untilClosed (List.replicate n q) z).2) := by
  obtain ⟨after, hquotes⟩ : ∃ after, List.replicate n q ++ z = q :: after ∧
      (if [q, q].isPrefixOf after then 3 else 1) = n ∧ after.drop (n - 1) = z := by
    rcases h.count with rfl | rfl
    · exact ⟨z, rfl, by rw [hsingle rfl]; rfl, rfl⟩
    · exact ⟨q :: q :: z, rfl, by simp, rfl⟩
  obtain ⟨hbytes, hcount, hdrop⟩ := hquotes
  rw [hbytes, literal?_eq_behind_letters, h.letterCount_eq, List.drop_left]
  simp only [h.isQuote, if_true, literal?_quote h.isQuote, hcount, hdrop, Option.map_some,
    Nat.add_assoc]
  rfl

end

theorem literal?_eq_none_iff (t : Text) :
    literal? t = none ↔ ∀ c ∈ (t.drop (letterCount t)).head?, Byte.isQuote c = false := by
  rw [literal?_eq_behind_letters]
  cases t.drop (letterCount t) with
  | nil => simp
  | cons q after =>
    cases hq : Byte.isQuote q with
    | false => simp [hq]
    | true => rcases literal?_quote_cases hq after with ⟨n, hn⟩ | ⟨n, hn⟩ <;> simp [hq, hn]

/-- A name is no part of a literal unless it could be its letters and a quote follows. -/
theorem IsName.literal?_eq_none_iff {name rest : Text} (h : IsName name)
    (hends : ∀ c ∈ rest.head?, Byte.isIdentPart c = false) :
    literal? (name ++ rest) = none ↔
      (letterCount name = name.length → ∀ c ∈ rest.head?, Byte.isQuote c = false) := by
  have hletter : ∀ {c}, Byte.isIdentPart c = false → Byte.isLiteralLetter c = false :=
    @(Byte.all (by decide))
  have hquote : ∀ {c}, Byte.isIdentPart c = true → Byte.isQuote c = false :=
    @(Byte.all (by decide))
  have hle := letterCount_le name
  rw [Token.literal?_eq_none_iff, letterCount_append (fun c hc => hletter (hends c hc)),
    List.drop_append_of_le_length hle]
  cases hdrop : name.drop (letterCount name) with
  | nil =>
    rw [List.drop_eq_nil_iff] at hdrop
    rw [List.nil_append]
    exact ⟨fun hrest _ => hrest, fun hrest => hrest (by omega)⟩
  | cons c w =>
    -- the byte behind the letters is one of the name
    have hc : Byte.isQuote c = false :=
      hquote (h.isIdentPart c (List.mem_of_mem_drop (hdrop ▸ List.mem_cons_self)))
    have hlt : letterCount name < name.length := by
      have hlength := congrArg List.length hdrop
      rw [List.length_drop, List.length_cons] at hlength
      omega
    refine iff_of_true ?_ fun heq => absurd heq (by omega)
    rintro _ ⟨⟩
    exact hc

/-- A closed literal is its body and the delimiter. -/
theorem exists_body_of_untilClosed {delim t : Text} (h : (untilClosed delim t).2 = true) :
    ∃ body behind, t = body ++ (delim ++ behind) ∧
      (untilClosed delim t).1 = body.length + delim.length := by
  fun_induction untilClosed delim t with
  | case1 => cases h
  | case2 => cases h
  | case3 c after n closed hrec ih =>
    rw [hrec] at ih
    obtain ⟨body, behind, hafter, hlength⟩ := ih h
    refine ⟨Byte.backslash :: c :: body, behind, by rw [hafter]; rfl, ?_⟩
    simp only [List.length_cons] at hlength ⊢
    omega
  | case4 b rest hb hprefix =>
    obtain ⟨behind, hbehind⟩ := List.isPrefixOf_iff_prefix.1 hprefix
    exact ⟨[], behind, hbehind.symm, (Nat.zero_add _).symm⟩
  | case5 b rest hb hprefix n closed hrec ih =>
    rw [hrec] at ih
    obtain ⟨body, behind, hrest, hlength⟩ := ih h
    refine ⟨b :: body, behind, by rw [hrest]; rfl, ?_⟩
    simp only [List.length_cons] at hlength ⊢
    omega

/-! ## Signs -/

/-- A sign is an operator or a single byte. -/
theorem punctSize_cases (t : Text) :
    punctSize t = 1 ∨ ∃ op ∈ operators, op <+: t ∧ punctSize t = op.length := by
  unfold punctSize
  cases hfind : operators.find? (·.isPrefixOf t) with
  | none => exact .inl rfl
  | some op =>
    have hprefix := List.find?_some hfind
    rw [List.isPrefixOf_iff_prefix] at hprefix
    exact .inr ⟨op, List.mem_of_find?_eq_some hfind, hprefix, rfl⟩

theorem punctSize_bounds (b : UInt8) (rest : Text) :
    1 ≤ punctSize (b :: rest) ∧ punctSize (b :: rest) ≤ rest.length + 1 := by
  have hsome : ∀ op ∈ operators, 1 ≤ op.length := by decide +kernel
  rcases punctSize_cases (b :: rest) with heq | ⟨op, hop, hprefix, heq⟩
  · rw [heq]
    exact ⟨Nat.le_refl _, Nat.le_add_left _ _⟩
  · rw [heq]
    exact ⟨hsome op hop, hprefix.length_le⟩

/-! ## Lexemes -/

/-- In front of `rest` the lexer takes `text` for one token of the kind. -/
inductive IsLexeme (rest : Text) : Kind → Text → Prop
  | ident {name : Text} (isName : IsName name)
      (ends : ∀ c ∈ rest.head?, Byte.isIdentPart c = false)
      (free : letterCount name = name.length → ∀ c ∈ rest.head?, Byte.isQuote c = false) :
      IsLexeme rest .ident name
  | number {b : UInt8} {w : Text} (isDigit : Byte.isDigit b = true)
      (parts : ∀ c ∈ w, Byte.isNumberPart c = true)
      (ends : ∀ c ∈ rest.head?, Byte.isNumberPart c = false) : IsLexeme rest .number (b :: w)
  | sign {b : UInt8} {w : Text} (starts : Byte.startsSign b = true)
      (size : punctSize (b :: w ++ rest) = (b :: w).length) : IsLexeme rest .punct (b :: w)
  | literal {letters body : Text} {q : UInt8} {n : Nat} {closed : Bool}
      (opening : IsOpening letters q n)
      (single : n = 1 → [q, q].isPrefixOf (body ++ (closingOf closed n q ++ rest)) = false)
      (reach : untilClosed (List.replicate n q) (body ++ (closingOf closed n q ++ rest)) =
        (body.length + (closingOf closed n q).length, closed))
      (last : closed = false → rest = []) :
      IsLexeme rest (.string (extentOf closed))
        (letters ++ (List.replicate n q ++ (body ++ closingOf closed n q)))

section

variable {rest : Text} {kind : Kind} {text : Text}

theorem lexeme_of_literal? {b : UInt8} {rest : Text} (hb : b ≠ Byte.hash) {size : Nat}
    {extent : Extent} (h : literal? (b :: rest) = some (size, extent)) :
    lexeme b rest = (.string extent, size - 1) := by
  rw [lexeme, if_neg hb, h]

theorem lexeme_of_none {b : UInt8} {rest : Text} (hb : b ≠ Byte.hash)
    (h : literal? (b :: rest) = none) :
    lexeme b rest =
      if Byte.isIdentStart b then (.ident, (rest.takeWhile Byte.isIdentPart).length)
      else if Byte.isDigit b then (.number, (rest.takeWhile Byte.isNumberPart).length)
      else (.punct, punctSize (b :: rest) - 1) := by
  rw [lexeme, if_neg hb, h]

/-- A byte that is neither a letter nor a quote opens no literal. -/
theorem literal?_cons_eq_none {b : UInt8} (hletter : Byte.isLiteralLetter b = false)
    (hquote : Byte.isQuote b = false) (rest : Text) : literal? (b :: rest) = none := by
  have hcount : letterCount (b :: rest) = 0 := by
    rw [letterCount, List.take_succ_cons, List.takeWhile_cons_of_neg (by simp [hletter])]
    rfl
  rw [literal?_eq_none_iff, hcount]
  rintro _ ⟨⟩
  exact hquote

theorem takeWhile_append_of_stop {p : UInt8 → Bool} {w : Text} (hw : ∀ c ∈ w, p c = true)
    (hrest : ∀ c ∈ rest.head?, p c = false) : (w ++ rest).takeWhile p = w := by
  rw [List.takeWhile_append_of_pos hw]
  cases rest with
  | nil => rw [List.takeWhile_nil, List.append_nil]
  | cons c rest =>
    rw [List.takeWhile_cons_of_neg (by simp [hrest c rfl]), List.append_nil]

/-- The lexer takes a lexeme for a token. -/
theorem IsLexeme.lexeme_eq (h : IsLexeme rest kind text) :
    ∃ b w, text = b :: w ∧ Byte.isGap b = false ∧ lexeme b (w ++ rest) = (kind, w.length) := by
  cases h with
  | ident isName ends free =>
    have hstart : ∀ {c}, Byte.isIdentStart c = true → Byte.isGap c = false ∧ c ≠ Byte.hash :=
      @(Byte.all (by decide))
    have hnone := (isName.literal?_eq_none_iff ends).2 free
    obtain ⟨b, w, rfl, hb, hw⟩ := isName
    rw [List.cons_append] at hnone
    refine ⟨b, w, rfl, (hstart hb).1, ?_⟩
    rw [lexeme_of_none (hstart hb).2 hnone, if_pos hb, takeWhile_append_of_stop hw ends]
  | @number b w isDigit parts ends =>
    have hdigit : ∀ {c}, Byte.isDigit c = true → Byte.isGap c = false ∧ c ≠ Byte.hash ∧
        Byte.isLiteralLetter c = false ∧ Byte.isQuote c = false ∧ Byte.isIdentStart c = false :=
      @(Byte.all (by decide))
    obtain ⟨hgap, hhash, hletter, hquote, hstart⟩ := hdigit isDigit
    refine ⟨b, w, rfl, hgap, ?_⟩
    rw [lexeme_of_none hhash (literal?_cons_eq_none hletter hquote _), hstart, isDigit,
      takeWhile_append_of_stop parts ends]
    rfl
  | @sign b w starts size =>
    have hsign : ∀ {c}, Byte.startsSign c = true → Byte.isGap c = false ∧ c ≠ Byte.hash ∧
        Byte.isLiteralLetter c = false ∧ Byte.isQuote c = false ∧ Byte.isIdentStart c = false ∧
          Byte.isDigit c = false := @(Byte.all (by decide))
    obtain ⟨hgap, hhash, hletter, hquote, hstart, hdigit⟩ := hsign starts
    refine ⟨b, w, rfl, hgap, ?_⟩
    rw [List.cons_append] at size
    rw [lexeme_of_none hhash (literal?_cons_eq_none hletter hquote _), hstart, hdigit, size]
    rfl
  | @literal letters body q n closed opening single reach last =>
    have hfirst : ∀ {c}, Byte.isLiteralLetter c = true ∨ Byte.isQuote c = true →
        Byte.isGap c = false ∧ c ≠ Byte.hash := @(Byte.all (by decide))
    obtain ⟨b, w, hbytes, hb⟩ := opening.exists_cons
    obtain ⟨hgap, hhash⟩ := hfirst hb
    have hlength := congrArg List.length hbytes
    have hliteral := opening.literal?_eq single
    rw [reach, ← List.append_assoc, hbytes, List.cons_append] at hliteral
    refine ⟨b, w ++ (body ++ closingOf closed n q), ?_, hgap, ?_⟩
    · rw [← List.append_assoc, hbytes]
      rfl
    · rw [List.append_assoc, List.append_assoc, lexeme_of_literal? hhash hliteral]
      simp only [List.length_append, List.length_replicate, List.length_cons] at hlength ⊢
      congr 1
      omega

theorem IsLexeme.scan_eq (h : IsLexeme rest kind text) (pos : Nat) :
    scan pos (text ++ rest) = ⟨kind, text, pos.toUInt32⟩ :: scan (pos + text.length) rest := by
  obtain ⟨b, w, rfl, hgap, hlexeme⟩ := h.lexeme_eq
  rw [List.cons_append, scan_lexeme pos _ (by simp [hgap]), hlexeme, List.take_left, List.drop_left,
    List.length_cons, Nat.add_assoc]

/-- A literal starts with what opens it. -/
theorem exists_opening_of_literal? {t : Text} {found : Nat × Extent}
    (h : literal? t = some found) :
    ∃ letters q n z, t = letters ++ (List.replicate n q ++ z) ∧ IsOpening letters q n ∧
      (n = 1 → [q, q].isPrefixOf z = false) := by
  have hshort : (t.take (letterCount t)).length ≤ 2 :=
    Nat.le_trans (List.length_take_le _ _)
      (Nat.le_trans (List.takeWhile_prefix _).length_le (List.length_take_le 2 t))
  have hletters : ∀ c ∈ t.take (letterCount t), Byte.isLiteralLetter c = true := by
    have hprefix : (t.take 2).takeWhile Byte.isLiteralLetter <+: t :=
      (List.takeWhile_prefix _).trans (List.take_prefix 2 t)
    rw [letterCount, ← List.prefix_iff_eq_take.1 hprefix]
    exact List.all_eq_true.1 List.all_takeWhile
  have happend := List.take_append_drop (letterCount t) t
  rw [literal?_eq_behind_letters] at h
  cases hdrop : t.drop (letterCount t) with
  | nil =>
    rw [hdrop] at h
    cases h
  | cons q after =>
    rw [hdrop] at h happend
    have hq : Byte.isQuote q = true := by
      simp only at h
      split at h
      · assumption
      · cases h
    by_cases htriple : [q, q].isPrefixOf after = true
    · obtain ⟨z, rfl⟩ := List.isPrefixOf_iff_prefix.1 htriple
      refine ⟨_, q, 3, z, happend.symm, ⟨hshort, hletters, hq, .inr rfl⟩, fun hone => ?_⟩
      cases hone
    · exact ⟨_, q, 1, after, happend.symm, ⟨hshort, hletters, hq, .inl rfl⟩, fun _ =>
        Bool.eq_false_iff.2 htriple⟩

/-- A literal reaches up to its delimiter or to the end of the line. -/
theorem exists_body_append_closing (n : Nat) (q : UInt8) (z : Text) :
    ∃ body behind, z = body ++ (closingOf (untilClosed (List.replicate n q) z).2 n q ++ behind) ∧
      (untilClosed (List.replicate n q) z).1 =
        body.length + (closingOf (untilClosed (List.replicate n q) z).2 n q).length ∧
      ((untilClosed (List.replicate n q) z).2 = false → behind = []) := by
  cases hclosed : (untilClosed (List.replicate n q) z).2 with
  | true =>
    obtain ⟨body, behind, hz, hlength⟩ := exists_body_of_untilClosed hclosed
    exact ⟨body, behind, hz, hlength, nofun⟩
  | false => exact ⟨z, [], by simp [closingOf], untilClosed_open hclosed, fun _ => rfl⟩

/-- The literal that the lexer finds. -/
theorem isLexeme_of_literal? {t : Text} {size : Nat} {extent : Extent}
    (h : literal? t = some (size, extent)) :
    IsLexeme (t.drop size) (.string extent) (t.take size) := by
  obtain ⟨letters, q, n, z, rfl, hopening, hsingle⟩ := exists_opening_of_literal? h
  obtain ⟨body, behind, hz, hlength, hlast⟩ := exists_body_append_closing n q z
  rw [hopening.literal?_eq hsingle, Option.some.injEq, Prod.mk.injEq] at h
  obtain ⟨rfl, rfl⟩ := h
  generalize hreach : untilClosed (List.replicate n q) z = reach at hz hlength hlast ⊢
  obtain ⟨m, closed⟩ := reach
  obtain rfl : m = body.length + (closingOf closed n q).length := hlength
  simp only at hz hlast ⊢
  rw [hz] at hreach hsingle ⊢
  have hsplit : letters ++ (List.replicate n q ++ (body ++ (closingOf closed n q ++ behind))) =
      letters ++ (List.replicate n q ++ (body ++ closingOf closed n q)) ++ behind := by
    simp only [List.append_assoc]
  have hsize : (letters ++ (List.replicate n q ++ (body ++ closingOf closed n q))).length =
      letters.length + n + (body.length + (closingOf closed n q).length) := by
    simp only [List.length_append, List.length_replicate, Nat.add_assoc]
  rw [hsplit, List.drop_left' hsize, List.take_left' hsize]
  exact .literal hopening hsingle hreach hlast

/-- **What the lexer finds is a lexeme.** -/
theorem isLexeme_lexeme {b : UInt8} (rest : Text) (hgap : Byte.isGap b = false)
    (hhash : b ≠ Byte.hash) :
    IsLexeme (rest.drop (lexeme b rest).2) (lexeme b rest).1
      (b :: rest.take (lexeme b rest).2) := by
  have hstop : ∀ p : UInt8 → Bool, ∀ c ∈ (rest.dropWhile p).head?, p c = false := by
    intro p c hc
    have hhead := List.head?_dropWhile_not p rest
    rw [Option.mem_def.1 hc] at hhead
    simpa using hhead
  have hrun : ∀ p : UInt8 → Bool, ∀ c ∈ rest.takeWhile p, p c = true := fun p =>
    List.all_eq_true.1 List.all_takeWhile
  cases hliteral : literal? (b :: rest) with
  | some found =>
    obtain ⟨size, extent⟩ := found
    obtain ⟨letters, q, after, n, -, -, -, -, -, rfl⟩ := exists_quote_of_literal? hliteral
    rw [lexeme_of_literal? hhash hliteral]
    exact isLexeme_of_literal? hliteral
  | none =>
    rw [lexeme_of_none hhash hliteral]
    by_cases hstart : Byte.isIdentStart b = true
    · have hname : IsName (b :: rest.takeWhile Byte.isIdentPart) := ⟨b, _, rfl, hstart, hrun _⟩
      rw [if_pos hstart, Text.take_length_takeWhile, Text.drop_length_takeWhile]
      refine .ident hname (hstop _) ((hname.literal?_eq_none_iff (hstop _)).1 ?_)
      rwa [List.cons_append, List.takeWhile_append_dropWhile]
    · by_cases hdigit : Byte.isDigit b = true
      · rw [if_neg hstart, if_pos hdigit, Text.take_length_takeWhile, Text.drop_length_takeWhile]
        exact .number hdigit (hrun _) (hstop _)
      · rw [if_neg hstart, if_neg hdigit]
        have hquote : Byte.isQuote b = false := by
          rw [Bool.eq_false_iff]
          intro hb
          rcases literal?_quote_cases hb rest with ⟨n, hn⟩ | ⟨n, hn⟩ <;> rw [hn] at hliteral <;>
            cases hliteral
        obtain ⟨hpos, hle⟩ := punctSize_bounds b rest
        refine .sign (by simp [Byte.startsSign, *]) ?_
        rw [List.cons_append, List.take_append_drop, List.length_cons,
          List.length_take_of_le (Nat.sub_le_of_le_add hle), Nat.sub_add_cancel hpos]

/-- A byte that is neither a gap nor opens a comment starts a lexeme. -/
theorem exists_isLexeme {b : UInt8} (rest : Text) (hgap : Byte.isGap b = false)
    (hhash : b ≠ Byte.hash) :
    ∃ kind text behind, b :: rest = text ++ behind ∧ IsLexeme behind kind text :=
  ⟨_, _, _, by simp, isLexeme_lexeme rest hgap hhash⟩

theorem IsLexeme.text_ne_nil (h : IsLexeme rest kind text) : text ≠ [] := by
  obtain ⟨b, w, rfl, -⟩ := h.lexeme_eq
  exact List.cons_ne_nil b w

theorem IsLexeme.kind_ne (h : IsLexeme rest kind text) : kind ≠ .comment := by
  cases h <;> exact nofun

end

end Token

end MojoLint
