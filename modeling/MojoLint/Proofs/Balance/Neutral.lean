import MojoLint.Proofs.Balance.Outline
import MojoLint.Proofs.Docstring.Stub

/-!
# What means nothing to the structure scan

Three kinds of text can be put in or taken away without the scan noticing, in code and inside a
docstring alike: plain bytes at the start of a line (`through_plain`), white space and a comment at
its end (`Outline.line_quiet`), and a stub on lines of its own (`through_stub`).
-/

namespace MojoLint

/-! ## A tail without quotes -/

/-- The bytes hold no quote. -/
def NoQuote (t : Text) : Prop := ∀ b ∈ t, Byte.isQuote b = false

namespace Token

/-- Quotes are looked for in front of a tail that does not start with one. -/
theorem isPrefixOf_append_of_head {delim u : Text} (hdelim : ∀ b ∈ delim, Byte.isQuote b = true)
    (hu : ∀ b ∈ u.head?, Byte.isQuote b = false) (t : Text) :
    delim.isPrefixOf (t ++ u) = delim.isPrefixOf t := by
  induction delim generalizing t with
  | nil => simp
  | cons d delim ih =>
    obtain ⟨hd, hrest⟩ := List.forall_mem_cons.1 hdelim
    cases t with
    | nil =>
      cases u with
      | nil => rfl
      | cons c u =>
        have hne : (d == c) = false := by
          rw [beq_eq_false_iff_ne]
          rintro rfl
          rw [hu d rfl] at hd
          cases hd
        simp [List.isPrefixOf, hne]
    | cons c t => simp [List.isPrefixOf, ih hrest t]

/-- Quotes are looked for in front of a tail that holds none. -/
theorem isPrefixOf_append {delim u : Text} (hdelim : ∀ b ∈ delim, Byte.isQuote b = true)
    (hu : NoQuote u) (t : Text) : delim.isPrefixOf (t ++ u) = delim.isPrefixOf t :=
  isPrefixOf_append_of_head hdelim (fun b hb => hu b (List.mem_of_head? hb)) t

theorem isPrefixOf_noQuote {delim u : Text} (hdelim : ∀ b ∈ delim, Byte.isQuote b = true)
    (hne : delim ≠ []) (hu : NoQuote u) : delim.isPrefixOf u = false := by
  have := isPrefixOf_append hdelim hu []
  rw [List.nil_append] at this
  rw [this]
  cases delim with
  | nil => exact absurd rfl hne
  | cons d delim => rfl

theorem untilClosed_closes {delim rest : Text} {b : UInt8} (hb : b ≠ Byte.backslash)
    (h : delim.isPrefixOf (b :: rest) = true) :
    untilClosed delim (b :: rest) = (delim.length, true) := by
  unfold untilClosed
  rw [if_neg hb, if_pos h]

theorem untilClosed_onward {delim rest : Text} {b : UInt8} (hb : b ≠ Byte.backslash)
    (h : ¬ delim.isPrefixOf (b :: rest) = true) :
    untilClosed delim (b :: rest) =
      ((untilClosed delim rest).1 + 1, (untilClosed delim rest).2) := by
  rw [untilClosed.eq_def]
  simp only [if_neg hb, if_neg h]

section

variable {delim u : Text} (hdelim : ∀ b ∈ delim, Byte.isQuote b = true) (hne : delim ≠ [])
  (hu : NoQuote u)

include hdelim hne in
theorem untilClosed_noQuote (hu : NoQuote u) : (untilClosed delim u).2 = false := by
  fun_induction untilClosed delim u with
  | case1 => rfl
  | case2 => rfl
  | case3 c after n closed hrec ih =>
    rw [hrec] at ih
    exact ih fun b hb => hu b (List.mem_cons_of_mem _ (List.mem_cons_of_mem _ hb))
  | case4 b rest _ hprefix =>
    rw [isPrefixOf_noQuote hdelim hne hu] at hprefix
    cases hprefix
  | case5 b rest _ _ n closed hrec ih =>
    rw [hrec] at ih
    exact ih fun c hc => hu c (List.mem_cons_of_mem _ hc)

include hdelim hne hu in
/-- A tail without quotes changes nothing about where a literal is closed. -/
theorem untilClosed_append (t : Text) :
    (untilClosed delim (t ++ u)).2 = (untilClosed delim t).2 ∧
      ((untilClosed delim t).2 = true →
        (untilClosed delim (t ++ u)).1 = (untilClosed delim t).1) := by
  fun_induction untilClosed delim t with
  | case1 =>
    refine ⟨?_, fun h => absurd h Bool.false_ne_true⟩
    rw [List.nil_append, untilClosed_noQuote hdelim hne hu]
  | case2 =>
    refine ⟨?_, fun h => absurd h Bool.false_ne_true⟩
    cases u with
    | nil => rfl
    | cons c u =>
      simp only [List.cons_append, List.nil_append, untilClosed, if_true]
      exact untilClosed_noQuote hdelim hne fun b hb => hu b (List.mem_cons_of_mem _ hb)
  | case3 c after n closed hrec ih =>
    rw [hrec] at ih
    simp only [List.cons_append, untilClosed, if_true]
    refine ⟨ih.1, fun h => ?_⟩
    rw [ih.2 h]
  | case4 b rest hb hprefix =>
    have hprefix' : delim.isPrefixOf (b :: (rest ++ u)) = true := by
      rw [← List.cons_append, isPrefixOf_append hdelim hu, hprefix]
    rw [List.cons_append, untilClosed_closes hb hprefix']
    exact ⟨rfl, fun _ => rfl⟩
  | case5 b rest hb hprefix n closed hrec ih =>
    rw [hrec] at ih
    have hprefix' : ¬ delim.isPrefixOf (b :: (rest ++ u)) = true := by
      rwa [← List.cons_append, isPrefixOf_append hdelim hu]
    rw [List.cons_append, untilClosed_onward hb hprefix']
    refine ⟨ih.1, fun h => ?_⟩
    rw [ih.2 h]

end

theorem untilClosed_le (delim t : Text) : (untilClosed delim t).1 ≤ t.length := by
  fun_induction untilClosed delim t with
  | case1 => exact Nat.le_refl _
  | case2 => exact Nat.le_refl _
  | case3 c after n closed hrec ih =>
    rw [hrec] at ih
    exact Nat.add_le_add_right ih 2
  | case4 b rest _ hprefix => exact (List.isPrefixOf_iff_prefix.1 hprefix).length_le
  | case5 b rest _ _ n closed hrec ih =>
    rw [hrec] at ih
    exact Nat.add_le_add_right ih 1

theorem isQuote_of_mem_replicate {q : UInt8} (hq : Byte.isQuote q = true) (n : Nat) :
    ∀ b ∈ List.replicate n q, Byte.isQuote b = true := by
  intro b hb
  rwa [List.eq_of_mem_replicate hb]

/-- A literal that its line closes is closed in front of a tail without quotes, and one that is not
closed there is not closed in the tail. -/
theorem literal?_append {q : UInt8} {rest u : Text} {size : Nat} {extent : Extent}
    (hq : Byte.isQuote q = true) (hu : NoQuote u)
    (h : literal? (q :: rest) = some (size, extent)) :
    ∃ size', literal? (q :: (rest ++ u)) = some (size', extent) ∧
      (extent = .complete → size' = size ∧ size - 1 ≤ rest.length) := by
  have hquotes : [q, q].isPrefixOf (rest ++ u) = [q, q].isPrefixOf rest :=
    isPrefixOf_append (isQuote_of_mem_replicate hq 2) hu rest
  have hsize : ∃ quotes, (if [q, q].isPrefixOf rest then 3 else 1) = quotes ∧ 1 ≤ quotes ∧
      quotes - 1 ≤ rest.length := by
    split
    · rename_i hprefix
      exact ⟨3, rfl, by decide, (List.isPrefixOf_iff_prefix.1 hprefix).length_le⟩
    · exact ⟨1, rfl, by decide, Nat.zero_le _⟩
  obtain ⟨quotes, heq, hpos, hle⟩ := hsize
  have hne : List.replicate quotes q ≠ [] := by
    rw [Ne, List.replicate_eq_nil_iff]
    omega
  rw [literal?_quote hq] at h ⊢
  simp only [hquotes, heq, List.drop_append_of_le_length hle, Option.some.injEq, Prod.mk.injEq]
    at h ⊢
  obtain ⟨hclosed, hsame⟩ := untilClosed_append (isQuote_of_mem_replicate hq quotes) hne hu
    (rest.drop (quotes - 1))
  have hbound := untilClosed_le (List.replicate quotes q) (rest.drop (quotes - 1))
  rw [List.length_drop] at hbound
  refine ⟨_, ⟨rfl, by rw [hclosed]; exact h.2⟩, ?_⟩
  rintro rfl
  have hopen : (untilClosed (List.replicate quotes q) (rest.drop (quotes - 1))).2 = true := by
    by_cases hc : (untilClosed (List.replicate quotes q) (rest.drop (quotes - 1))).2 = true
    · exact hc
    · rw [if_neg hc] at h
      cases h.2
  rw [hsame hopen]
  omega

end Token

namespace Balance

/-- The tail leaves the scan where it is, and no literal is closed in it. -/
structure Quiet (u : Text) : Prop where
  noQuote : NoQuote u
  outlineOf_eq : ∀ brackets, outlineOf brackets u = some ⟨brackets, false⟩

theorem isQuote_triple : ∀ b ∈ Delimiter.triple, Byte.isQuote b = true := List.all_eq_true.1 rfl

theorem outlineOf_append_open {q : UInt8} {rest u : Text} {brackets : List UInt8} (hu : NoQuote u)
    (hq : Byte.isQuote q = true)
    (hopen : ∀ size, Token.literal? (q :: rest) = some (size, .complete) → False) :
    outlineOf brackets (q :: rest ++ u) =
      if Delimiter.triple.isPrefixOf (q :: rest) then some ⟨brackets, true⟩ else none := by
  rcases Token.literal?_quote_cases hq rest with ⟨n, hn⟩ | ⟨n, hn⟩
  · exact absurd hn (hopen n)
  · obtain ⟨size, hliteral, -⟩ := Token.literal?_append hq hu hn
    rw [List.cons_append, outlineOf_open hq hliteral, ← List.cons_append,
      Token.isPrefixOf_append isQuote_triple hu]

theorem Quiet.outlineOf_append {u : Text} (hu : Quiet u) (brackets : List UInt8) (t : Text) :
    outlineOf brackets (t ++ u) = outlineOf brackets t := by
  fun_induction outlineOf brackets t with
  | case1 brackets => exact hu.outlineOf_eq brackets
  | case2 brackets rest => rw [List.cons_append, outlineOf_hash]
  | case3 brackets q rest hhash hq size hliteral ih =>
    obtain ⟨size', hliteral', hsame⟩ := Token.literal?_append hq hu.noQuote hliteral
    obtain ⟨rfl, hle⟩ := hsame rfl
    rw [List.cons_append, outlineOf_closed hq hliteral', List.drop_append_of_le_length hle, ih]
  | case4 brackets q rest hhash hq htriple hopen =>
    rw [outlineOf_append_open hu.noQuote hq hopen, if_pos htriple]
  | case5 brackets q rest hhash hq htriple hopen =>
    rw [outlineOf_append_open hu.noQuote hq hopen, if_neg htriple]
  | case6 brackets b rest hhash hq ih =>
    rw [List.cons_append, outlineOf_sign hhash (Bool.eq_false_iff.2 hq)]
    cases nest brackets b with
    | none => rfl
    | some next => exact ih next

theorem quiet_of_plain {u : Text} (h : ∀ b ∈ u, Byte.isPlain b = true) : Quiet u := by
  have hquote : ∀ {b}, Byte.isPlain b = true → Byte.isQuote b = false :=
    @(Byte.all (by decide))
  refine ⟨fun b hb => hquote (h b hb), ?_⟩
  intro brackets
  have := outlineOf_plain h brackets []
  rwa [List.append_nil, outlineOf_nil] at this

/-! ## Lines -/

theorem afterDocstring?_cons (b : UInt8) (t : Text) :
    afterDocstring? (b :: t) =
      if Delimiter.triple.isPrefixOf (b :: t) then some (t.drop 2) else afterDocstring? t := by
  unfold afterDocstring?
  rw [Text.find]
  split
  · rfl
  · cases Text.find Delimiter.triple t <;> rfl

theorem afterDocstring?_noQuote {u : Text} (hu : NoQuote u) (t : Text) :
    afterDocstring? (t ++ u) = (afterDocstring? t).map (· ++ u) := by
  induction t with
  | nil =>
    induction u with
    | nil => rfl
    | cons c u ih =>
      rw [List.nil_append, afterDocstring?_cons,
        Token.isPrefixOf_noQuote isQuote_triple (by decide) hu]
      exact ih fun b hb => hu b (List.mem_cons_of_mem _ hb)
  | cons b t ih =>
    rw [List.cons_append, afterDocstring?_cons, afterDocstring?_cons, ← List.cons_append,
      Token.isPrefixOf_append isQuote_triple hu]
    split
    · rename_i hprefix
      have hle : 2 ≤ t.length :=
        Nat.le_of_succ_le_succ (List.isPrefixOf_iff_prefix.1 hprefix).length_le
      rw [List.drop_append_of_le_length hle]
      rfl
    · exact ih

theorem afterDocstring?_plain {b : UInt8} (hb : Byte.isPlain b = true) (t : Text) :
    afterDocstring? (b :: t) = afterDocstring? t := by
  have hquote : ∀ {b}, Byte.isPlain b = true → (Byte.quote == b) = false :=
    @(Byte.all (by decide))
  rw [afterDocstring?_cons, if_neg]
  simp [Delimiter.triple, List.isPrefixOf, hquote hb]

/-- A quiet tail of a line means nothing. -/
theorem Outline.line_quiet {u : Text} (hu : Quiet u) (s : Outline) (t : Text) :
    s.line (t ++ u) = s.line t := by
  unfold Outline.line codePart?
  by_cases hinside : s.inside = true
  · rw [if_pos hinside, if_pos hinside, afterDocstring?_noQuote hu.noQuote]
    cases afterDocstring? t with
    | none => rfl
    | some code => exact hu.outlineOf_append s.brackets code
  · rw [if_neg hinside, if_neg hinside]
    exact hu.outlineOf_append s.brackets t

theorem Outline.line_plain {b : UInt8} (hb : Byte.isPlain b = true) (s : Outline) (t : Text) :
    s.line (b :: t) = s.line t := by
  unfold Outline.line codePart?
  by_cases hinside : s.inside = true
  · rw [if_pos hinside, if_pos hinside, afterDocstring?_plain hb]
  · rw [if_neg hinside, if_neg hinside]
    exact outlineOf_plain (p := [b]) (by simpa using hb) s.brackets t

theorem Outline.line_nil (s : Outline) : s.line [] = some s := by
  obtain ⟨brackets, inside⟩ := s
  cases inside with
  | true => rfl
  | false => exact outlineOf_nil brackets

/-! ## Texts -/

/-- Where the scan stands after a text, line feed by line feed. -/
def through (s : Outline) (t : Text) : Option Outline :=
  (List.splitOn Byte.lf t).foldlM Outline.line s

theorem through_line {t : Text} (h : Byte.lf ∉ t) (s : Outline) : through s t = s.line t := by
  rw [through, List.splitOn_eq_singleton h, List.foldlM_cons]
  cases s.line t <;> rfl

theorem through_nil (s : Outline) : through s [] = some s := by
  rw [through_line List.not_mem_nil, Outline.line_nil]

/-- A line feed cuts the scan in two. -/
theorem through_feed (s : Outline) (t u : Text) :
    through s (t ++ Byte.lf :: u) = (through s t).bind fun next => through next u := by
  rw [through, List.splitOn_append_cons_self, List.foldlM_append]
  rfl

/-- Plain bytes at the start of a line mean nothing, and neither do whole lines of them. -/
theorem through_plain {p : Text} (h : ∀ b ∈ p, Byte.isPlain b = true) (s : Outline) (t : Text) :
    through s (p ++ t) = through s t := by
  induction p with
  | nil => rfl
  | cons b p ih =>
    obtain ⟨hb, hrest⟩ := List.forall_mem_cons.1 h
    rw [← ih hrest, List.cons_append]
    by_cases hlf : b = Byte.lf
    · have hfeed := through_feed s [] (p ++ t)
      rw [through_nil, Option.bind_some] at hfeed
      rw [hlf]
      exact hfeed
    · obtain ⟨run, runs, hruns⟩ := List.exists_cons_of_ne_nil (List.splitOn_ne_nil Byte.lf (p ++ t))
      have hsplit := Text.splitOn_append (p := [b]) (by simpa using Ne.symm hlf) hruns
      rw [← List.singleton_append, through, through, hsplit, hruns]
      simp only [List.singleton_append, List.foldlM_cons, Outline.line_plain hb]

theorem isPlain_return {ret : Text} (h : ret = [] ∨ ret = [Byte.cr]) :
    ∀ b ∈ ret, Byte.isPlain b = true := by
  rcases h with rfl | rfl <;> exact List.all_eq_true.1 rfl

theorem quiet_return {ret : Text} (h : ret = [] ∨ ret = [Byte.cr]) : Quiet ret :=
  quiet_of_plain (isPlain_return h)

theorem isPlain_feed : ∀ b ∈ [Byte.lf], Byte.isPlain b = true := List.all_eq_true.1 rfl

theorem line_close (s : Outline) (body feed : Text) :
    s.line (Line.close body feed).text = s.line body := by
  unfold Line.close
  split
  · rename_i hlast
    obtain ⟨init, rfl⟩ := List.getLast?_eq_some_iff.1 hlast
    rw [List.dropLast_concat]
    exact (Outline.line_quiet (quiet_return (.inr rfl)) s init).symm
  · rfl

/-- The lines of a text lead where its line feeds lead: an empty line at the end means nothing, and
neither does a carriage return. -/
theorem foldlM_lines (s : Outline) (t : Text) :
    t.lines.foldlM Outline.line s = through s t := by
  unfold Text.lines
  fun_induction Line.split t generalizing s with
  | case1 => exact (through_nil s).symm
  | case2 b t hdrop =>
    rw [List.map_singleton, List.foldlM_cons, line_close,
      through_line (Line.lf_notMem_of_dropWhile hdrop)]
    cases s.line (b :: t) <;> rfl
  | case3 b t head rest hdrop shorter ih =>
    have hbytes := Line.eq_takeWhile_append_feed hdrop
    rw [List.map_cons, List.foldlM_cons, line_close, hbytes, through_feed, ← hbytes,
      through_line (Line.lf_notMem_takeWhile _)]
    cases s.line ((b :: t).takeWhile (· != Byte.lf)) with
    | none => rfl
    | some next => exact ih next

/-- **A text passes the check when it leads from the empty outline back to it.** -/
theorem check_eq_ok_iff_through {t : Text} :
    check t = .ok () ↔ through ⟨[], false⟩ t = some ⟨[], false⟩ := by
  rw [check_eq_ok_iff_outline, foldlM_lines]

/-! ## Stubs -/

/-- Inside a docstring a delimiter leads out of it. -/
theorem through_closing (brackets : List UInt8) (t : Text) :
    through ⟨brackets, true⟩ (Delimiter.triple ++ t) = through ⟨brackets, false⟩ t := by
  obtain ⟨run, runs, hruns⟩ := List.exists_cons_of_ne_nil (List.splitOn_ne_nil Byte.lf t)
  have hsplit := Text.splitOn_append (p := Delimiter.triple) (by decide) hruns
  have hline : Outline.line ⟨brackets, true⟩ (Delimiter.triple ++ run) =
      Outline.line ⟨brackets, false⟩ run := by
    have hafter : afterDocstring? (Delimiter.triple ++ run) = some run := by
      rw [show Delimiter.triple ++ run = Byte.quote :: Byte.quote :: Byte.quote :: run from rfl,
        afterDocstring?_cons, if_pos (by simp [Delimiter.triple])]
      rfl
    simp only [Outline.line, codePart?, if_true, hafter]
    rfl
  rw [through, through, hsplit, hruns, List.foldlM_cons, List.foldlM_cons, hline]

theorem untilClosed_triple {p : Text} (hquote : NoQuote p) (hslash : Byte.backslash ∉ p)
    (t : Text) :
    Token.untilClosed Delimiter.triple (p ++ (Delimiter.triple ++ t)) = (p.length + 3, true) := by
  induction p with
  | nil =>
    refine Token.untilClosed_closes (by decide) ?_
    simp [Delimiter.triple]
  | cons b p ih =>
    rw [List.mem_cons, not_or] at hslash
    obtain ⟨hb, hrest⟩ := List.forall_mem_cons.1 hquote
    have hne : (Byte.quote == b) = false := by
      rw [beq_eq_false_iff_ne]
      rintro rfl
      cases hb
    rw [List.cons_append, Token.untilClosed_onward (Ne.symm hslash.1)
      (by simp [Delimiter.triple, List.isPrefixOf, hne]), ih hrest hslash.2]
    rfl

theorem literal?_triple (t : Text) :
    Token.literal? (Delimiter.triple ++ t) =
      some (3 + (Token.untilClosed Delimiter.triple t).1,
        if (Token.untilClosed Delimiter.triple t).2 then .complete else .unterminated) := by
  have hquotes : [Byte.quote, Byte.quote].isPrefixOf (Byte.quote :: Byte.quote :: t) = true := by
    simp
  have hliteral := Token.literal?_quote (q := Byte.quote) rfl (Byte.quote :: Byte.quote :: t)
  simp only [hquotes, if_true, Nat.add_one_sub_one, List.drop_succ_cons, List.drop_zero]
    at hliteral
  exact hliteral

/-- A docstring that is closed on its line means nothing. -/
theorem outlineOf_docstring {p : Text} (hquote : NoQuote p) (hslash : Byte.backslash ∉ p)
    (brackets : List UInt8) (t : Text) :
    outlineOf brackets (Delimiter.triple ++ (p ++ (Delimiter.triple ++ t))) =
      outlineOf brackets t := by
  have hliteral := literal?_triple (p ++ (Delimiter.triple ++ t))
  rw [untilClosed_triple hquote hslash] at hliteral
  have hdrop : (Byte.quote :: Byte.quote :: (p ++ (Delimiter.triple ++ t))).drop
      (3 + (p.length + 3) - 1) = t := by
    rw [show 3 + (p.length + 3) - 1 = p.length + 3 + 1 + 1 by omega, List.drop_succ_cons,
      List.drop_succ_cons, ← List.drop_drop, List.drop_left]
    rfl
  refine (outlineOf_closed (q := Byte.quote) rfl hliteral brackets).trans ?_
  exact congrArg (outlineOf brackets) hdrop

/-- A delimiter with no other on its line leads into a docstring. -/
theorem outlineOf_opening {p : Text} (hquote : NoQuote p) (brackets : List UInt8) :
    outlineOf brackets (Delimiter.triple ++ p) = some ⟨brackets, true⟩ := by
  have hliteral := literal?_triple p
  rw [Token.untilClosed_noQuote isQuote_triple (by decide) hquote] at hliteral
  have hopen := outlineOf_open (q := Byte.quote) rfl hliteral brackets
  rw [if_pos (by simp [Delimiter.triple])] at hopen
  exact hopen

theorem through_opening {p : Text} (hquote : NoQuote p) (hfeed : Byte.lf ∉ p)
    (brackets : List UInt8) (t : Text) :
    through ⟨brackets, false⟩ (Delimiter.triple ++ (p ++ Byte.lf :: t)) =
      through ⟨brackets, true⟩ t := by
  have hline : Byte.lf ∉ Delimiter.triple ++ p := List.not_mem_append (by decide) hfeed
  rw [← List.append_assoc, through_feed, through_line hline]
  show (outlineOf brackets (Delimiter.triple ++ p)).bind _ = _
  rw [outlineOf_opening hquote, Option.bind_some]

/-- A docstring of plain bytes means nothing, be it on one line or on several. -/
theorem through_docstring {p : Text} (hplain : ∀ b ∈ p, Byte.isPlain b = true)
    (hslash : Byte.backslash ∉ p) (brackets : List UInt8) (t : Text) :
    through ⟨brackets, false⟩ (Delimiter.triple ++ (p ++ (Delimiter.triple ++ t))) =
      through ⟨brackets, false⟩ t := by
  by_cases hfeed : Byte.lf ∈ p
  · obtain ⟨first, later, rfl, hfirst⟩ := List.eq_append_cons_of_mem hfeed
    obtain ⟨hfirstPlain, hlater⟩ := List.forall_mem_append.1 hplain
    rw [List.append_assoc, List.cons_append,
      through_opening (quiet_of_plain hfirstPlain).noQuote hfirst,
      through_plain (List.forall_mem_cons.1 hlater).2, through_closing]
  · obtain ⟨run, runs, hruns⟩ := List.exists_cons_of_ne_nil (List.splitOn_ne_nil Byte.lf t)
    have hnone : Byte.lf ∉ Delimiter.triple ++ (p ++ Delimiter.triple) := by
      have : Byte.lf ∉ Delimiter.triple := by decide
      simp [hfeed, this]
    have hsplit := Text.splitOn_append hnone hruns
    simp only [List.append_assoc] at hsplit
    have hline : Outline.line ⟨brackets, false⟩
        (Delimiter.triple ++ (p ++ (Delimiter.triple ++ run))) =
        Outline.line ⟨brackets, false⟩ run :=
      outlineOf_docstring (quiet_of_plain hplain).noQuote hslash brackets run
    rw [through, through, hsplit, hruns, List.foldlM_cons, List.foldlM_cons, hline]

/-- **A stub means nothing**, in code and inside a docstring: its two delimiters lead out of where
the scan is and back. -/
theorem through_stub {doc : Text} (h : Docstring.IsStub doc) (s : Outline) (t : Text) :
    through s (doc ++ t) = through s t := by
  have hprose : ∀ {b}, Docstring.isProse b = true → Byte.isPlain b = true ∧ b ≠ Byte.backslash :=
    @(Byte.all (by decide))
  obtain ⟨pad, prose, rfl, hpad, hbytes, -⟩ := h.exists_prose
  have hpadPlain : ∀ b ∈ pad, Byte.isPlain b = true := by
    intro b hb
    rw [hpad b hb]
    rfl
  have hplain : ∀ b ∈ prose, Byte.isPlain b = true := fun b hb => (hprose (hbytes b hb)).1
  have hslash : Byte.backslash ∉ prose := fun hmem => (hprose (hbytes _ hmem)).2 rfl
  have hfeed : ∀ next, through next ([Byte.lf] ++ t) = through next t :=
    fun next => through_plain isPlain_feed next t
  simp only [List.append_assoc]
  rw [through_plain hpadPlain]
  obtain ⟨brackets, inside⟩ := s
  cases inside with
  | false => rw [through_docstring hplain hslash, hfeed]
  | true =>
    rw [through_closing, through_plain hplain]
    exact through_opening (p := []) nofun nofun brackets t

end Balance

end MojoLint
