import MojoLint.Proofs.Token.Seams

/-!
# Lexing in front of a tail

A tail that holds no quote and starts with a byte that breaks every token leaves the tokens in front
of it alone, strings included: either the last of them can only be ended by the end of the line, and
the tail becomes a part of it, or the tail has tokens of its own (`scan_tail`).

A name behind code is read likewise. It is a token of its own, or a part of the word or number that
the code ends in (`scan_append_name`).
-/

namespace MojoLint

theorem Byte.isLiteralLetter_of_breaks :
    ∀ {b : UInt8}, breaks b = true → isLiteralLetter b = false :=
  @(all (by decide))

theorem Byte.isQuote_of_breaks : ∀ {b : UInt8}, breaks b = true → isQuote b = false :=
  @(all (by decide))

/-- No token of a line goes on with the bytes, unless only the end of the line ends it. -/
structure IsTail (u : Text) : Prop where
  noQuote : NoQuote u
  breaks : ∀ b ∈ u.head?, Byte.breaks b = true

theorem isTail_of_isSpace {u : Text} (h : ∀ b ∈ u, Byte.isSpace b = true) : IsTail u := by
  have hquote : ∀ {b}, Byte.isSpace b = true → Byte.isQuote b = false :=
    @(Byte.all (by decide))
  refine ⟨fun b hb => hquote (h b hb), ?_⟩
  intro b hb
  exact Byte.breaks_of_isSpace (h b (List.mem_of_head? hb))

namespace Token

/-! ## Literals -/

/-- The number of letters at the start of a text that may belong to a literal. -/
def letterCount (t : Text) : Nat := ((t.take 2).takeWhile Byte.isLiteralLetter).length

theorem letterCount_le (t : Text) : letterCount t ≤ t.length :=
  Nat.le_trans (List.takeWhile_prefix _).length_le (List.take_prefix 2 t).length_le

theorem letterCount_append {u : Text} (h : ∀ b ∈ u.head?, Byte.isLiteralLetter b = false)
    (t : Text) : letterCount (t ++ u) = letterCount t := by
  have hstop : ∀ n, (u.take n).takeWhile Byte.isLiteralLetter = [] := by
    intro n
    cases u with
    | nil => rw [List.take_nil, List.takeWhile_nil]
    | cons b u =>
      cases n with
      | zero => rfl
      | succ n => exact List.takeWhile_cons_of_neg (by rw [h b rfl]; exact Bool.false_ne_true)
  unfold letterCount
  rw [List.take_append, List.takeWhile_append, hstop, List.append_nil]
  split
  · rename_i hall
    rw [hall]
  · rfl

/-- A literal is one that starts with its quote, behind the letters. -/
theorem literal?_eq_behind_letters (t : Text) :
    literal? t =
      match t.drop (letterCount t) with
      | [] => none
      | q :: after =>
        if Byte.isQuote q then
          (literal? (q :: after)).map fun found => (letterCount t + found.1, found.2)
        else none := by
  rw [literal?]
  simp only
  rw [← letterCount]
  cases t.drop (letterCount t) with
  | nil => rfl
  | cons q after =>
    simp only
    split
    · rename_i hq
      rw [literal?_quote hq]
      simp only [Option.map_some, Nat.add_assoc]
    · rfl

theorem literal?_tail_none {t u : Text} (hu : ∀ b ∈ u.head?, Byte.breaks b = true)
    (h : literal? t = none) : literal? (t ++ u) = none := by
  have hcount := letterCount_append (fun b hb => Byte.isLiteralLetter_of_breaks (hu b hb)) t
  rw [literal?_eq_behind_letters] at h ⊢
  rw [hcount, List.drop_append_of_le_length (letterCount_le t)]
  cases hdrop : t.drop (letterCount t) with
  | nil =>
    cases u with
    | nil => rfl
    | cons b u =>
      have hb := Byte.isQuote_of_breaks (hu b rfl)
      simp [hb]
  | cons q after =>
    rw [hdrop] at h
    simp only [List.cons_append] at h ⊢
    split at h
    · rename_i hq
      rcases literal?_quote_cases hq after with ⟨n, hn⟩ | ⟨n, hn⟩ <;> rw [hn] at h <;> cases h
    · rename_i hq
      rw [if_neg hq]

theorem untilClosed_append_of_closed {delim t u : Text}
    (hdelim : ∀ b ∈ delim, Byte.isQuote b = true) (hu : ∀ b ∈ u.head?, Byte.isQuote b = false)
    (h : (untilClosed delim t).2 = true) : untilClosed delim (t ++ u) = untilClosed delim t := by
  fun_induction untilClosed delim t with
  | case1 => cases h
  | case2 => cases h
  | case3 c after n closed hrec ih =>
    rw [hrec] at ih
    simp only [List.cons_append, untilClosed, if_true, ih h]
  | case4 b rest hb hprefix =>
    rw [List.cons_append]
    apply untilClosed_closes hb
    rw [← List.cons_append, isPrefixOf_append_of_head hdelim hu, hprefix]
  | case5 b rest hb hprefix n closed hrec ih =>
    rw [hrec] at ih
    rw [List.cons_append, untilClosed_onward hb, ih h]
    rwa [← List.cons_append, isPrefixOf_append_of_head hdelim hu]

/-- A literal is what opens it and a body, which reaches up to the delimiter. The quotes that open it
are still the same in front of bytes that break tokens. -/
theorem exists_body_of_literal? {t : Text} {size : Nat} {extent : Extent}
    (h : literal? t = some (size, extent)) :
    ∃ front body delim, t = front ++ body ∧ (∀ b ∈ delim, Byte.isQuote b = true) ∧ delim ≠ [] ∧
      ∀ u : Text, (∀ b ∈ u.head?, Byte.breaks b = true) →
        literal? (t ++ u) =
          some (front.length + (untilClosed delim (body ++ u)).1,
            if (untilClosed delim (body ++ u)).2 then .complete else .unterminated) := by
  rw [literal?_eq_behind_letters] at h
  have hle := letterCount_le t
  cases hdrop : t.drop (letterCount t) with
  | nil =>
    rw [hdrop] at h
    cases h
  | cons q after =>
    have hq : Byte.isQuote q = true := by
      rw [hdrop] at h
      simp only at h
      split at h
      · assumption
      · cases h
    obtain ⟨quotes, heq, hpos, hbound⟩ : ∃ quotes,
        (if [q, q].isPrefixOf after then 3 else 1) = quotes ∧ 1 ≤ quotes ∧
          quotes - 1 ≤ after.length := by
      split
      · rename_i hprefix
        exact ⟨3, rfl, by decide, (List.isPrefixOf_iff_prefix.1 hprefix).length_le⟩
      · exact ⟨1, rfl, by decide, Nat.zero_le _⟩
    refine ⟨t.take (letterCount t) ++ q :: after.take (quotes - 1), after.drop (quotes - 1),
      List.replicate quotes q, ?_, isQuote_of_mem_replicate hq quotes, ?_, ?_⟩
    · rw [List.append_assoc, List.cons_append, List.take_append_drop, ← hdrop,
        List.take_append_drop]
    · rw [Ne, List.replicate_eq_nil_iff]
      omega
    · intro u hu
      have hcount := letterCount_append (fun b hb => Byte.isLiteralLetter_of_breaks (hu b hb)) t
      have hquotes : [q, q].isPrefixOf (after ++ u) = [q, q].isPrefixOf after :=
        isPrefixOf_append_of_head (isQuote_of_mem_replicate hq 2)
          (fun b hb => Byte.isQuote_of_breaks (hu b hb)) after
      rw [literal?_eq_behind_letters, hcount, List.drop_append_of_le_length hle, hdrop]
      simp only [List.cons_append, hq, if_true, literal?_quote hq, hquotes, heq,
        List.drop_append_of_le_length hbound, Option.map_some, List.length_append, List.length_cons,
        List.length_take, Nat.min_eq_left hle, Nat.min_eq_left hbound, Option.some.injEq,
        Prod.mk.injEq, and_true]
      omega

theorem literal?_tail_some {t u : Text} {size : Nat} {extent : Extent} (hu : IsTail u)
    (h : literal? t = some (size, extent)) : ∃ size', literal? (t ++ u) = some (size', extent) := by
  obtain ⟨front, body, delim, -, hdelim, hne, hliteral⟩ := exists_body_of_literal? h
  have hself := hliteral [] nofun
  rw [List.append_nil, List.append_nil, h, Option.some.injEq, Prod.mk.injEq] at hself
  rw [hliteral u hu.breaks, (untilClosed_append hdelim hne hu.noQuote body).1, ← hself.2]
  exact ⟨_, rfl⟩

/-! ## Tokens -/

/-- A token that can end before the line does is the same one in front of bytes that break it. -/
theorem lexeme_of_breaks {b : UInt8} {rest u : Text} (hu : ∀ c ∈ u.head?, Byte.breaks c = true)
    (h : ¬ ((lexeme b rest).1 = .comment ∨ (lexeme b rest).1 = .string .unterminated)) :
    lexeme b (rest ++ u) = lexeme b rest ∧ (lexeme b rest).2 ≤ rest.length := by
  have hapart : Apart (b :: rest) u := .inr hu
  unfold lexeme at h ⊢
  by_cases hhash : b = Byte.hash
  · rw [if_pos hhash] at h
    exact absurd (.inl rfl) h
  · rw [if_neg hhash] at h
    rw [if_neg hhash, if_neg hhash, ← List.cons_append]
    cases hl : literal? (b :: rest) with
    | some pair =>
      obtain ⟨size, extent⟩ := pair
      obtain ⟨front, body, delim, ht, hdelim, -, hliteral⟩ := exists_body_of_literal? hl
      have hself := hliteral [] nofun
      rw [List.append_nil, List.append_nil, hl, Option.some.injEq, Prod.mk.injEq] at hself
      obtain ⟨hsize, hextent⟩ := hself
      have hclosed : (untilClosed delim body).2 = true := by
        cases hflag : (untilClosed delim body).2 with
        | true => rfl
        | false =>
          rw [hl, hextent, hflag] at h
          exact absurd (.inr rfl) h
      have hsame := untilClosed_append_of_closed hdelim
        (fun c hc => Byte.isQuote_of_breaks (hu c hc)) hclosed
      have hle := untilClosed_le delim body
      have hlength := congrArg List.length ht
      rw [List.length_cons, List.length_append] at hlength
      rw [hliteral u hu, hsame, ← hsize, ← hextent]
      exact ⟨rfl, by simp only; omega⟩
    | none =>
      rw [literal?_tail_none hu hl]
      simp only
      split
      · rename_i hstart
        have hle := length_takeWhile_of_apart (fun c => Byte.isNumberPart_of_isIdentPart)
          (Byte.isIdentPart_of_isIdentStart hstart) hapart
        have hsame := length_takeWhile_left hle
        rw [← hsame] at hle ⊢
        exact ⟨rfl, hle⟩
      · split
        · rename_i hdigit
          have hle := length_takeWhile_of_apart (fun c hc => hc)
            (Byte.isNumberPart_of_isDigit hdigit) hapart
          have hsame := length_takeWhile_left hle
          rw [← hsame] at hle ⊢
          exact ⟨rfl, hle⟩
        · have hle := punctSize_of_apart hapart
          have hsame := punctSize_left hle
          rw [← hsame] at hle ⊢
          exact ⟨rfl, Nat.sub_le_of_le_add hle⟩

/-- A token is the same one in front of a tail, or it is ended by nothing but the end of the
line. -/
theorem lexeme_tail (b : UInt8) (rest : Text) {u : Text} (hu : IsTail u) :
    (lexeme b (rest ++ u)).1 = (lexeme b rest).1 ∧
      (((lexeme b rest).1 = .comment ∨ (lexeme b rest).1 = .string .unterminated) ∨
        (lexeme b (rest ++ u)).2 = (lexeme b rest).2 ∧ (lexeme b rest).2 ≤ rest.length) := by
  by_cases hopen : (lexeme b rest).1 = .comment ∨ (lexeme b rest).1 = .string .unterminated
  · refine ⟨?_, .inl hopen⟩
    unfold lexeme at hopen ⊢
    by_cases hhash : b = Byte.hash
    · rw [if_pos hhash, if_pos hhash]
    · rw [if_neg hhash] at hopen
      rw [if_neg hhash, if_neg hhash, ← List.cons_append]
      cases hl : literal? (b :: rest) with
      | some pair =>
        obtain ⟨size, extent⟩ := pair
        obtain ⟨size', hl'⟩ := literal?_tail_some hu hl
        rw [hl']
      | none =>
        rw [hl] at hopen
        simp only at hopen
        split at hopen
        · simp at hopen
        · split at hopen <;> simp at hopen
  · obtain ⟨hsame, hle⟩ := lexeme_of_breaks hu.breaks hopen
    rw [hsame]
    exact ⟨rfl, .inr ⟨rfl, hle⟩⟩

/-- The token with more bytes at its end. -/
def extend (t : Token) (u : Text) : Token := { t with text := t.text ++ u }

/-- **A text and a tail.** -/
theorem scan_tail (pos : Nat) (t : Text) {u : Text} (hu : IsTail u) :
    ((∀ x ∈ scan pos t, ¬ x.endsLine) ∧
        scan pos (t ++ u) = scan pos t ++ scan (pos + t.length) u) ∨
      ∃ ts last, last.endsLine ∧ scan pos t = ts ++ [last] ∧
        scan pos (t ++ u) = ts ++ [last.extend u] := by
  fun_induction scan pos t with
  | case1 => exact .inl ⟨List.forall_mem_nil _, rfl⟩
  | case2 pos b rest hgap ih =>
    rw [List.cons_append, scan_gap pos _ hgap, List.length_cons, Nat.add_comm rest.length,
      ← Nat.add_assoc]
    exact ih
  | case3 pos b rest hgap kind more hlex ih =>
    obtain ⟨hkind, hmore⟩ := lexeme_tail b rest hu
    rw [List.cons_append, scan_lexeme pos _ hgap]
    rw [hlex] at hkind hmore
    simp only at hkind hmore
    by_cases hend : kind = .comment ∨ kind = .string .unterminated
    · have hall : rest.length ≤ (lexeme b rest).2 :=
        lexeme_endsLine (by rw [hlex]; exact hend)
      have hall' : (rest ++ u).length ≤ (lexeme b (rest ++ u)).2 :=
        lexeme_endsLine (by rw [hkind]; exact hend)
      rw [hlex] at hall
      refine .inr ⟨[], ⟨kind, b :: rest, pos.toUInt32⟩, hend, ?_, ?_⟩
      · rw [List.take_of_length_le hall, List.drop_eq_nil_of_le hall, scan_nil]
        rfl
      · rw [hkind, List.take_of_length_le hall', List.drop_eq_nil_of_le hall', scan_nil]
        rfl
    · obtain ⟨hsame, hle⟩ := hmore.resolve_left hend
      have hpos : pos + more + 1 + (rest.drop more).length = pos + (b :: rest).length := by
        rw [List.length_drop, List.length_cons]
        omega
      rw [hkind, hsame, List.take_append_of_le_length hle, List.drop_append_of_le_length hle]
      rw [hpos] at ih
      rcases ih with ⟨hclosed, hscan⟩ | ⟨ts, last, hlast, hts, hscan⟩
      · refine .inl ⟨List.forall_mem_cons.2 ⟨hend, hclosed⟩, ?_⟩
        rw [hscan]
        rfl
      · refine .inr ⟨⟨kind, b :: rest.take more, pos.toUInt32⟩ :: ts, last, hlast, ?_, ?_⟩
        · rw [hts, List.cons_append]
        · rw [hscan, List.cons_append]

section

variable {pos : Nat} {t u : Text} {ts : List Token} {last : Token}

theorem scan_tail_of_closed (hu : IsTail u) (h : ∀ x ∈ scan pos t, ¬ x.endsLine) :
    scan pos (t ++ u) = scan pos t ++ scan (pos + t.length) u := by
  rcases scan_tail pos t hu with ⟨-, hscan⟩ | ⟨ts, last, hlast, hts, -⟩
  · exact hscan
  · refine absurd hlast (h last ?_)
    rw [hts]
    exact List.mem_concat_self

theorem scan_tail_of_open (hu : IsTail u) (h : scan pos t = ts ++ [last]) (hlast : last.endsLine) :
    scan pos (t ++ u) = ts ++ [last.extend u] := by
  rcases scan_tail pos t hu with ⟨hclosed, -⟩ | ⟨ts', last', -, hts', hscan⟩
  · refine absurd hlast (hclosed last ?_)
    rw [h]
    exact List.mem_concat_self
  · obtain ⟨rfl, hsame⟩ := List.append_inj' (h.symm.trans hts') rfl
    cases hsame
    exact hscan

/-- Behind the last token there are gaps only. -/
theorem getLast?_text_of_scan (h : scan pos t = ts ++ [last])
    (hend : ∀ b ∈ t.getLast?, Byte.isSpace b = false) : last.text.getLast? = t.getLast? := by
  have hlaid := laid_scan pos t
  rw [h] at hlaid
  obtain ⟨first, rest, hline, hrest, -, -⟩ := hlaid.append
  cases hrest with
  | @cons _ _ gap behind _ _ hbytes _ _ hne hlater =>
    cases hlater with
    | nil hgaps =>
      have hnil : behind = [] := by
        rcases List.eq_nil_or_concat behind with rfl | ⟨init, c, rfl⟩
        · rfl
        · rw [List.concat_eq_append] at hgaps hbytes
          have hc := hend c (by
            rw [hline, hbytes, ← List.append_assoc, ← List.append_assoc]
            exact List.getLast?_concat)
          rw [Byte.isSpace_of_isGap (hgaps c List.mem_concat_self)] at hc
          cases hc
      rw [hline, hbytes, hnil, List.append_nil, ← List.append_assoc, List.getLast?_append,
        List.getLast?_eq_some_getLast hne, Option.some_or]

end

/-! ## Names behind code -/

/-- The bytes that go on a token of the kind. -/
inductive GoesOn : Kind → (UInt8 → Bool) → Prop
  | ident : GoesOn .ident Byte.isIdentPart
  | number : GoesOn .number Byte.isNumberPart

theorem takeWhile_append_cases (p : UInt8 → Bool) (t u : Text) :
    (((t ++ u).takeWhile p).length = (t.takeWhile p).length ∧
        (t.takeWhile p).length ≤ t.length) ∨
      (t.takeWhile p).length = t.length ∧
        ((t ++ u).takeWhile p).length = t.length + (u.takeWhile p).length := by
  rw [List.takeWhile_append]
  split
  · rename_i hall
    exact .inr ⟨hall, List.length_append⟩
  · exact .inl ⟨rfl, (List.takeWhile_prefix p).length_le⟩

/-- A token of code ends before a name, unless it is a word or a number that the code ends in. -/
theorem lexeme_name {b : UInt8} {rest u : Text} (h : IsCode (b :: rest)) (hu : NoQuote u)
    (hname : ∀ c ∈ u.head?, Byte.isIdentStart c = true) :
    (lexeme b (rest ++ u) = lexeme b rest ∧ (lexeme b rest).2 ≤ rest.length) ∨
      ∃ kind p, GoesOn kind p ∧ lexeme b rest = (kind, rest.length) ∧
        lexeme b (rest ++ u) = (kind, rest.length + (u.takeWhile p).length) := by
  have hb := (h b List.mem_cons_self).2
  have hquote : NoQuote (b :: (rest ++ u)) := by
    intro c hc
    rcases List.mem_append.1 (show c ∈ (b :: rest) ++ u from hc) with hc | hc
    · exact h.noQuote c hc
    · exact hu c hc
  rw [lexeme_of_noQuote hb hquote, lexeme_of_noQuote hb h.noQuote]
  split
  · rcases takeWhile_append_cases Byte.isIdentPart rest u with ⟨hsame, hle⟩ | ⟨hall, hmore⟩
    · exact .inl ⟨by rw [hsame], hle⟩
    · exact .inr ⟨_, _, .ident, by rw [hall], by rw [hmore]⟩
  · split
    · rcases takeWhile_append_cases Byte.isNumberPart rest u with ⟨hsame, hle⟩ | ⟨hall, hmore⟩
      · exact .inl ⟨by rw [hsame], hle⟩
      · exact .inr ⟨_, _, .number, by rw [hall], by rw [hmore]⟩
    · -- no operator holds a letter
      have hsign : ∀ op ∈ operators, ∀ c ∈ op.tail, Byte.isIdentStart c = false := by
        decide +kernel
      have hle : punctSize (b :: rest ++ u) ≤ (b :: rest).length := by
        apply punctSize_append_le
        refine fun op hop => .inr fun c hc hmem => ?_
        have hletter := hsign op hop c hmem
        rw [hname c hc] at hletter
        cases hletter
      have hsame := punctSize_left hle
      rw [List.cons_append] at hsame hle
      exact .inl ⟨by rw [hsame], Nat.sub_le_of_le_add (hsame ▸ hle)⟩

/-- **Code and a name behind it.** -/
theorem scan_append_name (pos : Nat) {t u : Text} (ht : IsCode t) (hu : NoQuote u)
    (hname : ∀ c ∈ u.head?, Byte.isIdentStart c = true) :
    scan pos (t ++ u) = scan pos t ++ scan (pos + t.length) u ∨
      ∃ ts last p pos', scan pos t = ts ++ [last] ∧ GoesOn last.kind p ∧
        scan pos (t ++ u) = ts ++ last.extend (u.takeWhile p) :: scan pos' (u.dropWhile p) := by
  fun_induction scan pos t with
  | case1 => exact .inl rfl
  | case2 pos b rest hgap ih =>
    rw [List.cons_append, scan_gap pos _ hgap, List.length_cons, Nat.add_comm rest.length,
      ← Nat.add_assoc]
    exact ih (ht.of_sublist (List.sublist_cons_self b rest))
  | case3 pos b rest hgap kind more hlex ih =>
    rw [List.cons_append, scan_lexeme pos _ hgap]
    rcases lexeme_name ht hu hname with ⟨hsame, hle⟩ | ⟨kind', p, hgoes, hlast, hlong⟩
    · rw [hsame]
      rw [hlex] at hle ⊢
      have hpos : pos + more + 1 + (rest.drop more).length = pos + (b :: rest).length := by
        rw [List.length_drop, List.length_cons]
        omega
      have hcode : IsCode (rest.drop more) :=
        ht.of_sublist ((List.drop_sublist more rest).trans (List.sublist_cons_self b rest))
      have hrest := ih hcode
      rw [hpos] at hrest
      simp only [List.take_append_of_le_length hle, List.drop_append_of_le_length hle]
      rcases hrest with hscan | ⟨ts, last, p, pos', hts, hgoes, hscan⟩
      · exact .inl (by rw [hscan]; rfl)
      · exact .inr ⟨_ :: ts, last, p, pos', by rw [hts]; rfl, hgoes, by rw [hscan]; rfl⟩
    · rw [hlex] at hlast
      cases hlast
      refine .inr ⟨[], ⟨kind, b :: rest, pos.toUInt32⟩, p,
        pos + (rest.length + (u.takeWhile p).length) + 1, ?_, hgoes, ?_⟩
      · rw [List.take_length, List.drop_length, scan_nil]
        rfl
      · rw [hlong]
        simp only [List.take_length_add_append, List.drop_length_add_append,
          Text.take_length_takeWhile, Text.drop_length_takeWhile]
        rfl

end Token

end MojoLint
