import Mathlib.Data.List.Basic
import Mathlib.Data.List.Find
import MojoLint.Proofs.Token.Lexemes

/-!
# Tokens without contents

The code view shows a token as it stands, but for what a literal holds: of a literal it shows the
letters and the quotes (`IsOpening.code_eq`). What is shown is a lexeme again in front of any text
that starts as the text behind the token did (`IsLexeme.relexed`). There is one exception: a literal
that a single quote closes shows two quotes, and a third one behind them makes them open a literal
of three quotes (`IsLexeme.scan_joined`).
-/

namespace MojoLint.Token

/-! ## Literals without contents -/

section

variable {letters body : Text} {q : UInt8} {n : Nat}

theorem IsOpening.quoteCount_eq (h : IsOpening letters q n) {z : Text}
    (hsingle : n = 1 → [q, q].isPrefixOf z = false) : quoteCount (List.replicate n q ++ z) = n := by
  have hquotes : Text.ofString "\"\"\"" = [34, 34, 34] ∧
      Text.ofString "\x27\x27\x27" = [39, 39, 39] := by
    decide +kernel
  have hq : q = 34 ∨ q = 39 := by simpa [Byte.isQuote] using h.isQuote
  unfold quoteCount Text.startsWith
  rw [hquotes.1, hquotes.2]
  rcases h.count with rfl | rfl
  · have hsingle : ¬ [q, q] <+: z := by
      rw [← List.isPrefixOf_iff_prefix, hsingle rfl]
      exact Bool.false_ne_true
    rcases hq with rfl | rfl <;> simpa [List.isPrefixOf] using hsingle
  · rcases hq with rfl | rfl <;> simp [List.isPrefixOf, List.replicate]

theorem IsOpening.parts_eq (h : IsOpening letters q n) {closed : Bool}
    (hsingle : n = 1 → [q, q].isPrefixOf (body ++ closingOf closed n q) = false) (column : UInt32) :
    parts ⟨.string (extentOf closed),
      letters ++ (List.replicate n q ++ (body ++ closingOf closed n q)), column⟩ =
        ⟨letters ++ List.replicate n q, body, closingOf closed n q⟩ := by
  have hletters : ∀ c ∈ (List.replicate n q ++ (body ++ closingOf closed n q)).head?,
      Byte.isLiteralLetter c = false := by
    intro c hc
    have hpos := h.pos
    obtain ⟨n, rfl⟩ := Nat.exists_eq_succ_of_ne_zero (Nat.ne_of_gt hpos)
    cases hc
    exact not_isLiteralLetter_of_isQuote h.isQuote
  have htake := takeWhile_append_of_stop h.isLetter hletters
  have hdrop : (letters ++ (List.replicate n q ++ (body ++ closingOf closed n q))).dropWhile
      Byte.isLiteralLetter = List.replicate n q ++ (body ++ closingOf closed n q) := by
    rw [← Text.drop_length_takeWhile, htake, List.drop_left]
  have hlength : (List.replicate n q).length = n := List.length_replicate
  have hend : ∀ k, k = (closingOf closed n q).length →
      (body ++ closingOf closed n q).take ((body ++ closingOf closed n q).length - k) = body ∧
        (body ++ closingOf closed n q).drop ((body ++ closingOf closed n q).length - k) =
          closingOf closed n q := by
    rintro _ rfl
    rw [List.length_append, Nat.add_sub_cancel]
    exact ⟨List.take_left, List.drop_left⟩
  have hclosing : (if Kind.string (extentOf closed) = .string .unterminated then 0
      else if n ≤ (body ++ closingOf closed n q).length then n else 0) =
        (closingOf closed n q).length := by
    cases closed with
    | false => rfl
    | true => simp [extentOf, closingOf]
  have hcontinued : ¬ Kind.string (extentOf closed) = .string .continued := by
    cases closed <;> simp [extentOf]
  rw [parts, if_neg hcontinued]
  simp only [htake, hdrop, h.quoteCount_eq hsingle, List.take_left' hlength,
    List.drop_left' hlength, hclosing, hend _ rfl]

/-- A literal in the code view keeps its letters and its quotes. -/
theorem IsOpening.code_eq (h : IsOpening letters q n) {closed : Bool}
    (hsingle : n = 1 → [q, q].isPrefixOf (body ++ closingOf closed n q) = false) (column : UInt32) :
    code ⟨.string (extentOf closed),
      letters ++ (List.replicate n q ++ (body ++ closingOf closed n q)), column⟩ =
        letters ++ (List.replicate n q ++ closingOf closed n q) := by
  rw [code]
  simp only [h.parts_eq hsingle column, List.append_assoc]

/-- A literal without contents that is not followed by its quote is lexed as it stands. -/
theorem IsOpening.isLexeme (h : IsOpening letters q n) {closed : Bool} {w : Text}
    (hapart : closed = true → n = 1 → q ∉ w.head?) (hlast : closed = false → w = []) :
    IsLexeme w (.string (extentOf closed))
      (letters ++ (List.replicate n q ++ closingOf closed n q)) := by
  have hbackslash : ∀ {c}, Byte.isQuote c = true → c ≠ Byte.backslash := @(Byte.all (by decide))
  rw [← List.nil_append (closingOf closed n q)]
  cases closed with
  | false =>
    obtain rfl := hlast rfl
    exact .literal h (fun _ => rfl) rfl hlast
  | true =>
    refine .literal h ?_ ?_ nofun
    · rintro rfl
      have hq := hapart rfl rfl
      cases w with
      | nil => simp [closingOf, List.isPrefixOf]
      | cons c w =>
        have hne : q ≠ c := by
          rintro rfl
          exact hq rfl
        simp [closingOf, List.isPrefixOf, hne]
    · obtain ⟨m, rfl⟩ := Nat.exists_eq_succ_of_ne_zero (Nat.ne_of_gt h.pos)
      have hprefix : (List.replicate (m + 1) q).isPrefixOf (List.replicate (m + 1) q ++ w) = true :=
        List.isPrefixOf_iff_prefix.2 (List.prefix_append _ _)
      rw [List.replicate_succ, List.cons_append] at hprefix
      simp only [closingOf, if_true, List.nil_append, List.replicate_succ, List.cons_append]
      rw [untilClosed_closes (hbackslash h.isQuote) hprefix]
      simp

end

/-- What does not stand at the start of a text does not stand there when its end is gone. -/
theorem isPrefixOf_body {n : Nat} {d body closing rest : Text}
    (h : n = 1 → d.isPrefixOf (body ++ (closing ++ rest)) = false) :
    n = 1 → d.isPrefixOf (body ++ closing) = false := by
  intro hn
  have hlong := h hn
  rw [← List.append_assoc] at hlong
  rw [Bool.eq_false_iff, Ne, List.isPrefixOf_iff_prefix] at hlong ⊢
  exact fun hfront => hlong (hfront.trans (List.prefix_append _ _))

/-- White space that is a token of its own, and that trimming takes off the end of a line. -/
def isCut (t : Token) : Bool :=
  t.kind == .punct && (t.text == [11] || t.text == [12] || t.text == [Byte.lf])

theorem isCut_spec {t : Token} (h : isCut t = true) :
    ∃ b, t.text = [b] ∧ Byte.isSpace b = true := by
  simp only [isCut, Bool.and_eq_true, Bool.or_eq_true, beq_iff_eq] at h
  rcases h.2 with (htext | htext) | htext <;> exact ⟨_, htext, rfl⟩

/-! ## Where a token ends -/

/-- A byte of an operator. -/
def isOperatorPart (b : UInt8) : Bool := operators.any fun op => op.any (· == b)

theorem isOperatorPart_iff {b : UInt8} :
    isOperatorPart b = true ↔ ∃ op ∈ operators, b ∈ op := by
  simp [isOperatorPart]

theorem not_isSpace_of_isOperatorPart {b : UInt8} (h : isOperatorPart b = true) :
    Byte.isSpace b = false := by
  have hops : ∀ op ∈ operators, ∀ c ∈ op, Byte.isSpace c = false := by decide +kernel
  obtain ⟨op, hop, hb⟩ := isOperatorPart_iff.1 h
  exact hops op hop b hb

/-- Only the bytes of operators at the start of a text say how long the sign there is. -/
theorem punctSize_congr {t u : Text}
    (h : t.takeWhile isOperatorPart = u.takeWhile isOperatorPart) : punctSize t = punctSize u := by
  have hrun : ∀ op ∈ operators, ∀ t : Text,
      op.isPrefixOf t = op.isPrefixOf (t.takeWhile isOperatorPart) := by
    intro op hop t
    have hpart : ∀ c ∈ op, isOperatorPart c = true := fun c hc =>
      isOperatorPart_iff.2 ⟨op, hop, hc⟩
    rw [Bool.eq_iff_iff, List.isPrefixOf_iff_prefix, List.isPrefixOf_iff_prefix]
    refine ⟨?_, fun hprefix => hprefix.trans (List.takeWhile_prefix _)⟩
    rintro ⟨behind, rfl⟩
    rw [List.takeWhile_append_of_pos hpart]
    exact List.prefix_append _ _
  have hfind : operators.find? (·.isPrefixOf t) = operators.find? (·.isPrefixOf u) := by
    apply List.find?_congr
    intro op hop
    rw [hrun op hop t, hrun op hop u, h]
  rw [punctSize, punctSize, hfind]

section

variable {rest : Text} {kind : Kind} {text : Text}

theorem IsLexeme.sign_cases (h : IsLexeme rest .punct text) :
    text ∈ operators ∨ ∃ b, text = [b] ∧ Byte.startsSign b = true := by
  cases h with
  | @sign b w starts size =>
    rcases punctSize_cases (b :: w ++ rest) with hone | ⟨op, hop, hprefix, hsize⟩
    · rw [hone] at size
      obtain rfl : w = [] := List.eq_nil_of_length_eq_zero (by simpa using size.symm)
      exact .inr ⟨b, rfl, starts⟩
    · have hsame := List.prefix_of_prefix_length_le hprefix (List.prefix_append (b :: w) rest)
        (by omega)
      rw [← hsame.eq_of_length (by omega)]
      exact .inl hop

/-- The code view of a token is blank when the token is white space, and otherwise it ends in a byte
that is none. -/
theorem IsLexeme.trimRight_code (h : IsLexeme rest kind text) (column : UInt32) :
    (isCut ⟨kind, text, column⟩ = true ∧ Text.trimRight (code ⟨kind, text, column⟩) = []) ∨
      (isCut ⟨kind, text, column⟩ = false ∧
        Text.trimRight (code ⟨kind, text, column⟩) = code ⟨kind, text, column⟩) := by
  have hword : ∀ {b}, Byte.isNumberPart b = true → Byte.isSpace b = false := @(Byte.all (by decide))
  have hquote : ∀ {b}, Byte.isQuote b = true → Byte.isSpace b = false := @(Byte.all (by decide))
  cases h with
  | ident isName ends free =>
    refine .inr ⟨rfl, Text.trimRight_eq_self fun b hb => hword ?_⟩
    exact Byte.isNumberPart_of_isIdentPart (isName.isIdentPart b (List.mem_of_getLast? hb))
  | @number b w isDigit parts ends =>
    refine .inr ⟨rfl, Text.trimRight_eq_self fun c hc => hword ?_⟩
    rcases List.mem_cons.1 (List.mem_of_getLast? hc) with rfl | hc
    · exact Byte.isNumberPart_of_isDigit isDigit
    · exact parts c hc
  | @sign b w starts size =>
    have hops : ∀ op ∈ operators, isCut ⟨.punct, op, 0⟩ = false ∧
        ∀ c ∈ op, Byte.isSpace c = false := by decide +kernel
    have hsingle : ∀ {c}, Byte.startsSign c = true →
        isCut ⟨.punct, [c], 0⟩ = true ∧ Byte.isSpace c = true ∨
          isCut ⟨.punct, [c], 0⟩ = false ∧ Byte.isSpace c = false := @(Byte.all (by decide))
    rcases (IsLexeme.sign starts size).sign_cases with hop | ⟨c, heq, hc⟩
    · refine .inr ⟨(hops _ hop).1, Text.trimRight_eq_self fun c hc => ?_⟩
      exact (hops _ hop).2 c (List.mem_of_getLast? hc)
    · cases heq
      rcases hsingle hc with ⟨hcut, hspace⟩ | ⟨hcut, hspace⟩
      · refine .inl ⟨hcut, (Text.trimRight_eq_nil_iff _).2 ?_⟩
        rintro _ (_ | ⟨_, ⟨⟩⟩)
        exact hspace
      · refine .inr ⟨hcut, Text.trimRight_eq_self ?_⟩
        rintro _ ⟨⟩
        exact hspace
  | @literal letters body q n closed opening single reach last =>
    refine .inr ⟨rfl, ?_⟩
    rw [opening.code_eq (isPrefixOf_body single)]
    have hquotes : ∀ b ∈ List.replicate n q ++ closingOf closed n q, Byte.isQuote b = true := by
      refine List.forall_mem_append.2 ⟨isQuote_of_mem_replicate opening.isQuote n, ?_⟩
      cases closed with
      | false => exact List.forall_mem_nil _
      | true => exact isQuote_of_mem_replicate opening.isQuote n
    refine Text.trimRight_eq_self fun b hb => hquote (hquotes b ?_)
    rw [List.getLast?_append_of_ne_nil] at hb
    · exact List.mem_of_getLast? hb
    · have hpos := opening.pos
      simp only [Ne, List.append_eq_nil_iff, List.replicate_eq_nil_iff]
      omega

/-- The code view of a token and of what follows ends where white space at the end is cut off. -/
theorem IsLexeme.trimRight_append (h : IsLexeme rest kind text) (column : UInt32) (view : Text) :
    Text.trimRight (code ⟨kind, text, column⟩ ++ view) =
      if Text.trimRight view = [] ∧ isCut ⟨kind, text, column⟩ = true then []
      else code ⟨kind, text, column⟩ ++ Text.trimRight view := by
  by_cases hview : Text.trimRight view = []
  · rw [Text.trimRight_append_of_nil hview, hview, List.append_nil]
    rcases h.trimRight_code column with ⟨hcut, htrim⟩ | ⟨hcut, htrim⟩ <;> rw [hcut, htrim] <;> rfl
  · rw [Text.trimRight_append_of_ne_nil hview, if_neg fun hnil => hview hnil.1]

theorem IsLexeme.head?_code (h : IsLexeme rest kind text) (column : UInt32) :
    (code ⟨kind, text, column⟩).head? = text.head? := by
  cases h with
  | ident isName ends free => rfl
  | number isDigit parts ends => rfl
  | sign starts size => rfl
  | @literal letters body q n closed opening single reach last =>
    have hfirst : (List.replicate n q).head? = some q := by
      rw [List.head?_replicate, if_neg (Nat.ne_of_gt opening.pos)]
    rw [opening.code_eq (isPrefixOf_body single), List.head?_append, List.head?_append,
      List.head?_append, List.head?_append, hfirst, Option.some_or, Option.some_or]

/-- What starts with a byte of an operator is made of such bytes. -/
theorem IsLexeme.operator (h : IsLexeme rest kind text) (column : UInt32)
    (hb : ∀ b ∈ text.head?, isOperatorPart b = true) :
    code ⟨kind, text, column⟩ = text ∧ ∀ c ∈ text, isOperatorPart c = true := by
  have hops : ∀ op ∈ operators, ∀ b ∈ op, Byte.isIdentStart b = false ∧
      Byte.isDigit b = false ∧ Byte.isLiteralLetter b = false ∧ Byte.isQuote b = false := by
    decide +kernel
  have hother : ∀ {b}, isOperatorPart b = true → Byte.isIdentStart b = false ∧
      Byte.isDigit b = false ∧ Byte.isLiteralLetter b = false ∧ Byte.isQuote b = false := by
    intro b hb
    obtain ⟨op, hop, hmem⟩ := isOperatorPart_iff.1 hb
    exact hops op hop b hmem
  cases h with
  | ident isName ends free =>
    obtain ⟨b, w, rfl, hstart, -⟩ := isName
    rw [(hother (hb b rfl)).1] at hstart
    cases hstart
  | @number b w isDigit parts ends =>
    rw [(hother (hb b rfl)).2.1] at isDigit
    cases isDigit
  | @sign b w starts size =>
    refine ⟨rfl, ?_⟩
    rcases (IsLexeme.sign starts size).sign_cases with hop | ⟨c, heq, hc⟩
    · exact fun c hc => isOperatorPart_iff.2 ⟨_, hop, hc⟩
    · cases heq
      rintro _ (_ | ⟨_, ⟨⟩⟩)
      exact hb b rfl
  | @literal letters body q n closed opening single reach last =>
    obtain ⟨b, w, hbytes, hfirst⟩ := opening.exists_cons
    rw [← List.append_assoc, hbytes] at hb
    obtain ⟨-, -, hletter, hquote⟩ := hother (hb b rfl)
    rw [hletter, hquote] at hfirst
    simp at hfirst

theorem IsLexeme.code_ne_nil (h : IsLexeme rest kind text) (column : UInt32) :
    code ⟨kind, text, column⟩ ≠ [] := by
  intro hnil
  have hhead := h.head?_code column
  obtain ⟨b, w, rfl, -⟩ := h.lexeme_eq
  rw [hnil] at hhead
  cases hhead

/-- What is shown of a token is shown as it stands. -/
theorem IsLexeme.code_code (h : IsLexeme rest kind text) (column column' : UInt32) :
    code ⟨kind, code ⟨kind, text, column⟩, column'⟩ = code ⟨kind, text, column⟩ := by
  cases h with
  | ident isName ends free => rfl
  | number isDigit parts ends => rfl
  | sign starts size => rfl
  | @literal letters body q n closed opening single reach last =>
    have hsingle : n = 1 → [q, q].isPrefixOf ([] ++ closingOf closed n q) = false := by
      rintro rfl
      cases closed <;> simp [closingOf, List.isPrefixOf]
    have hcode := opening.code_eq hsingle column'
    rw [List.nil_append] at hcode
    rw [opening.code_eq (isPrefixOf_body single), hcode]

/-! ## Tokens that are lexed again -/

/-- The text `w` starts as the text `line` does, as far as a token in front of it looks. -/
structure Resembles (line w : Text) : Prop where
  head_of : ∀ c ∈ w.head?, c ∈ line.head?
  head : ∀ c ∈ line.head?, Byte.isSpace c = false → c ≠ Byte.hash → c ∈ w.head?
  run : w.takeWhile isOperatorPart = line.takeWhile isOperatorPart

/-- White space and a comment may be gone. -/
theorem Resembles.gone {b : UInt8} (hb : Byte.isSpace b = true ∨ b = Byte.hash) (line : Text) :
    Resembles (b :: line) [] := by
  refine ⟨nofun, ?_, ?_⟩
  · rintro _ ⟨⟩ hsolid hhash
    rcases hb with hb | hb
    · rw [hb] at hsolid
      cases hsolid
    · exact absurd hb hhash
  · refine (List.takeWhile_cons_of_neg fun hpart => ?_).symm
    rcases hb with hb | rfl
    · rw [not_isSpace_of_isOperatorPart hpart] at hb
      cases hb
    · exact absurd hpart (by decide +kernel)

/-- Any other byte stays. What follows matters if an operator may go on there. -/
theorem Resembles.cons {b : UInt8} {line w : Text} (h : isOperatorPart b = true →
    w.takeWhile isOperatorPart = line.takeWhile isOperatorPart) :
    Resembles (b :: line) (b :: w) := by
  refine ⟨fun c hc => hc, fun c hc _ _ => hc, ?_⟩
  by_cases hb : isOperatorPart b = true
  · rw [List.takeWhile_cons_of_pos hb, List.takeWhile_cons_of_pos hb, h hb]
  · rw [List.takeWhile_cons_of_neg hb, List.takeWhile_cons_of_neg hb]

/-- **What is shown of a token is lexed again**, unless its closing quote is the byte behind it. -/
theorem IsLexeme.relexed (h : IsLexeme rest kind text) {w : Text} (hw : Resembles rest w)
    (column : UInt32)
    (hapart : kind = .string .complete → (parts ⟨kind, text, column⟩).closing ≠ rest.take 1) :
    IsLexeme w kind (code ⟨kind, text, column⟩) := by
  cases h with
  | ident isName ends free =>
    exact .ident isName (fun c hc => ends c (hw.head_of c hc))
      fun hletters c hc => free hletters c (hw.head_of c hc)
  | number isDigit parts ends =>
    exact .number isDigit parts fun c hc => ends c (hw.head_of c hc)
  | @sign b w' starts size =>
    refine .sign starts ?_
    rw [← size]
    apply punctSize_congr
    rw [List.takeWhile_append, List.takeWhile_append, hw.run]
  | @literal letters body q n closed opening single reach last =>
    have hsingle := isPrefixOf_body single
    rw [opening.code_eq hsingle]
    rw [opening.parts_eq hsingle] at hapart
    refine opening.isLexeme ?_ fun hclosed => ?_
    · rintro rfl rfl hq
      obtain ⟨behind, rfl⟩ := List.head?_eq_some_iff.1 (hw.head_of q hq)
      exact hapart rfl rfl
    · rw [last hclosed] at hw
      cases w with
      | nil => rfl
      | cons c w => cases hw.head_of c rfl

/-- Three quotes open a literal that is at least as long. -/
theorem IsOpening.scan_triple {letters : Text} {q : UInt8} (h : IsOpening letters q 3) (z : Text)
    (p : Nat) :
    ∃ t ts, scan p (letters ++ (List.replicate 3 q ++ z)) = t :: ts ∧
      letters.length + 3 ≤ t.text.length := by
  have hscan := (isLexeme_of_literal? (h.literal?_eq (z := z) nofun)).scan_eq p
  rw [List.take_append_drop] at hscan
  refine ⟨_, _, hscan, ?_⟩
  simp only [List.length_take, List.length_append, List.length_replicate]
  omega

/-- A literal whose closing is a single byte is closed by one quote. -/
theorem IsLexeme.exists_opening (h : IsLexeme rest (.string .complete) text) {column : UInt32}
    {x : Text} (hclosing : (parts ⟨.string .complete, text, column⟩).closing = x.take 1) :
    ∃ letters q, IsOpening letters q 3 ∧
      code ⟨.string .complete, text, column⟩ = letters ++ [q, q] ∧
        (parts ⟨.string .complete, text, column⟩).closing = [q] ∧ q ∈ x.head? := by
  generalize hkind : Kind.string .complete = kind at h hclosing ⊢
  cases h with
  | ident isName ends free => cases hkind
  | number isDigit parts ends => cases hkind
  | sign starts size => cases hkind
  | @literal letters body q n closed opening single reach last =>
    have hsingle := isPrefixOf_body single
    obtain rfl : closed = true := by
      cases closed with
      | false => cases hkind
      | true => rfl
    rw [opening.parts_eq hsingle] at hclosing ⊢
    rw [opening.code_eq hsingle]
    obtain rfl : n = 1 := by
      have hlength := congrArg List.length hclosing
      simp only [closingOf, if_true, List.length_replicate, List.length_take] at hlength
      have hcount := opening.count
      omega
    refine ⟨letters, q, ⟨opening.short, opening.isLetter, opening.isQuote, .inr rfl⟩, rfl, rfl, ?_⟩
    cases x with
    | nil => cases hclosing
    | cons c x =>
      cases hclosing
      rfl

/-- A literal whose closing quote is the byte behind it is not lexed again: the quotes that are
shown of it and the one behind them open a longer literal. -/
theorem IsLexeme.scan_joined (h : IsLexeme rest (.string .complete) text) {w : Text}
    (hw : Resembles rest w) {column : UInt32}
    (hclosing : (parts ⟨.string .complete, text, column⟩).closing = rest.take 1) (p : Nat) :
    ∃ t ts, scan p (code ⟨.string .complete, text, column⟩ ++ w) = t :: ts ∧
      t.text ≠ code ⟨.string .complete, text, column⟩ := by
  have hquote : ∀ {c}, Byte.isQuote c = true → Byte.isSpace c = false ∧ c ≠ Byte.hash :=
    @(Byte.all (by decide))
  obtain ⟨letters, q, hopening, hcode, -, hq⟩ := h.exists_opening hclosing
  obtain ⟨hsolid, hhash⟩ := hquote hopening.isQuote
  obtain ⟨z, rfl⟩ := List.head?_eq_some_iff.1 (hw.head q hq hsolid hhash)
  obtain ⟨t, ts, hscan, hlong⟩ := hopening.scan_triple z p
  refine ⟨t, ts, ?_, fun htext => ?_⟩
  · rw [hcode, ← hscan, List.append_assoc]
    rfl
  · rw [htext, hcode, List.length_append] at hlong
    simp at hlong

end

end MojoLint.Token
