import MojoLint.Block.Header
import MojoLint.Proofs.Token.Seams

/-!
# Reading a header text

A header text puts the code views of its lines on one line, to be lexed again. Where the lines hold
no quotes the tokens found there are those of the lines, but for their columns and for white space:
the vertical tab and the form feed are tokens of their own, and trimming takes some of them away
(`thinned_headerText`).
-/

namespace MojoLint

namespace Token

/-- The token is white space that the lexer does not pass over. -/
def IsBlank (t : Token) : Prop := t.kind = .punct ∧ ∀ b ∈ t.text, Byte.isSpace b = true

/-- The tokens `us` are the tokens `ts` without some blank ones, at any columns. -/
inductive Thinned : List Token → List Token → Prop
  | nil : Thinned [] []
  | keep {u t : Token} {us ts : List Token} (kind : u.kind = t.kind) (text : u.text = t.text)
      (rest : Thinned us ts) : Thinned (u :: us) (t :: ts)
  | drop {t : Token} {us ts : List Token} (blank : t.IsBlank) (rest : Thinned us ts) :
      Thinned us (t :: ts)

namespace Thinned

theorem refl (ts : List Token) : Thinned ts ts := by
  induction ts with
  | nil => exact .nil
  | cons t ts ih => exact .keep rfl rfl ih

theorem append {us ts us' ts' : List Token} (h : Thinned us ts) (h' : Thinned us' ts') :
    Thinned (us ++ us') (ts ++ ts') := by
  induction h with
  | nil => exact h'
  | keep kind text rest ih => exact .keep kind text ih
  | drop blank rest ih => exact .drop blank ih

theorem trans {us ts vs : List Token} (h : Thinned us ts) (h' : Thinned ts vs) :
    Thinned us vs := by
  induction h' generalizing us with
  | nil => exact h
  | @keep t v ts vs kind text rest ih =>
    cases h with
    | keep kind' text' rest' => exact .keep (kind'.trans kind) (text'.trans text) (ih rest')
    | drop blank rest' => exact .drop ⟨kind ▸ blank.1, text ▸ blank.2⟩ (ih rest')
  | drop blank rest ih => exact .drop blank (ih h)

theorem of_blank {ts : List Token} (h : ∀ t ∈ ts, t.IsBlank) : Thinned [] ts := by
  induction ts with
  | nil => exact .nil
  | cons t ts ih =>
    exact .drop (h t List.mem_cons_self) (ih fun u hu => h u (List.mem_cons_of_mem t hu))

/-- A token that is not blank is kept. -/
theorem of_cons {t : Token} {us ts : List Token} (ht : ¬ t.IsBlank) (h : Thinned us (t :: ts)) :
    ∃ u us', us = u :: us' ∧ u.kind = t.kind ∧ u.text = t.text ∧ Thinned us' ts := by
  cases h with
  | keep kind text rest => exact ⟨_, _, rfl, kind, text, rest⟩
  | drop blank rest => exact absurd blank ht

theorem exists_append {us ts vs : List Token} (h : Thinned us (ts ++ vs)) :
    ∃ us' vs', us = us' ++ vs' ∧ Thinned us' ts ∧ Thinned vs' vs := by
  induction ts generalizing us with
  | nil => exact ⟨[], us, rfl, .nil, h⟩
  | cons t ts ih =>
    cases h with
    | keep kind text rest =>
      obtain ⟨us', vs', rfl, hts, hvs⟩ := ih rest
      exact ⟨_ :: us', vs', rfl, .keep kind text hts, hvs⟩
    | drop blank rest =>
      obtain ⟨us', vs', rfl, hts, hvs⟩ := ih rest
      exact ⟨us', vs', rfl, .drop blank hts, hvs⟩

end Thinned

/-! ## The tokens of a trimmed text -/

/-- The column where a scan starts only shows in the columns. -/
theorem thinned_scan (pos pos' : Nat) (line : Text) : Thinned (scan pos line) (scan pos' line) := by
  fun_induction scan pos line generalizing pos' with
  | case1 => rw [scan_nil]; exact .nil
  | case2 pos b rest hgap ih => rw [scan_gap pos' rest hgap]; exact ih (pos' + 1)
  | case3 pos b rest hgap kind more hlex ih =>
    rw [scan_lexeme pos' rest hgap, hlex]
    exact .keep rfl rfl (ih _)

theorem isBlank_of_mem_scan {pos : Nat} {line : Text}
    (h : ∀ b ∈ line, Byte.isSpace b = true) {t : Token} (ht : t ∈ scan pos line) : t.IsBlank := by
  have hstart : ∀ {b}, Byte.isSpace b = true →
      Byte.isIdentStart b = false ∧ Byte.isDigit b = false ∧ Byte.isQuote b = false ∧
        b ≠ Byte.hash := @(Byte.all (by decide))
  obtain ⟨b, rest, hsuffix, -, hkind, htext⟩ := exists_lexeme_of_mem_scan ht
  have hspace : ∀ c ∈ b :: rest, Byte.isSpace c = true := fun c hc => h c (hsuffix.subset hc)
  obtain ⟨hident, hdigit, -, hhash⟩ := hstart (hspace b List.mem_cons_self)
  constructor
  · rw [hkind, lexeme_of_noQuote hhash fun c hc => (hstart (hspace c hc)).2.2.1, hident, hdigit]
    rfl
  · intro c hc
    rw [htext] at hc
    exact hspace c ((List.take_sublist _ rest).cons_cons b |>.subset hc)

theorem apart_of_isSpace {t u : Text} (h : ∀ b ∈ u, Byte.isSpace b = true) : Apart t u :=
  .inr fun b hb => Byte.breaks_of_isSpace (h b (List.mem_of_head? hb))

theorem isCode_of_isSpace {t : Text} (h : ∀ b ∈ t, Byte.isSpace b = true) : IsCode t := by
  have hcode : ∀ {b}, Byte.isSpace b = true → Byte.isQuote b = false ∧ b ≠ Byte.hash :=
    @(Byte.all (by decide))
  exact fun b hb => hcode (h b hb)

theorem isCode_trimRight {t : Text} (h : IsCode t) : IsCode (Text.trimRight t) := by
  obtain ⟨blank, heq, -⟩ := Text.exists_trimRight_append t
  rw [heq] at h
  exact fun b hb => h b (List.mem_append_left blank hb)

theorem thinned_trimRight (pos pos' : Nat) {t : Text} (h : IsCode t) :
    Thinned (scan pos (Text.trimRight t)) (scan pos' t) := by
  obtain ⟨blank, heq, hblank⟩ := Text.exists_trimRight_append t
  have hscan := scan_append pos' (isCode_trimRight h) (isCode_of_isSpace hblank).noQuote
    (apart_of_isSpace hblank)
  rw [← heq] at hscan
  rw [hscan, ← List.append_nil (scan pos _)]
  exact (thinned_scan _ _ _).append (.of_blank fun t ht => isBlank_of_mem_scan hblank ht)

theorem thinned_trimLeft (pos pos' : Nat) {t : Text} (h : IsCode t) :
    Thinned (scan pos (Text.trimLeft t)) (scan pos' t) := by
  have heq : t = t.takeWhile Byte.isSpace ++ Text.trimLeft t :=
    List.takeWhile_append_dropWhile.symm
  have hblank : ∀ b ∈ t.takeWhile Byte.isSpace, Byte.isSpace b = true :=
    List.all_eq_true.1 List.all_takeWhile
  have hsub : IsCode (Text.trimLeft t) := h.of_sublist (List.dropWhile_sublist _)
  have hapart : Apart (t.takeWhile Byte.isSpace) (Text.trimLeft t) :=
    .inl fun b hb => Byte.closes_of_isSpace (hblank b (List.mem_of_getLast? hb))
  have hscan := scan_append pos' (isCode_of_isSpace hblank) hsub.noQuote hapart
  rw [← heq] at hscan
  rw [hscan, ← List.nil_append (scan pos _)]
  exact (Thinned.of_blank fun t ht => isBlank_of_mem_scan hblank ht).append (thinned_scan _ _ _)

theorem thinned_trim (pos pos' : Nat) {t : Text} (h : IsCode t) :
    Thinned (scan pos (Text.trim t)) (scan pos' t) :=
  (thinned_trimRight pos 0 (h.of_sublist (List.dropWhile_sublist _))).trans
    (thinned_trimLeft 0 pos' h)

/-! ## Places between two tokens -/

/-- A line is cut in two between the tokens `ts` and `us`, the second part with its comment. -/
structure Cut (p q : Text) (ts us : List Token) : Prop where
  isCode : IsCode p
  noQuote : NoQuote q
  tokens : codeTokens (p ++ q) = ts ++ us
  before : scan 0 p = ts
  behind : scan p.length (uncomment q) = us

theorem exists_cut_of_codeTokens {line : Text} {ts us : List Token} (hquote : NoQuote line)
    (h : codeTokens line = ts ++ us) :
    ∃ p q, line = p ++ q ∧ Cut p q ts us ∧ EndsAt 0 p ts := by
  have hscan := h
  rw [codeTokens_of_noQuote hquote] at hscan
  obtain ⟨p, code, hline, hp, hcode, hends⟩ := exists_cut_of_scan (isCode_uncomment hquote) hscan
  have hbytes : line = p ++ (code ++ line.dropWhile (· != Byte.hash)) := by
    rw [← List.append_assoc, ← hline]
    exact List.takeWhile_append_dropWhile.symm
  generalize code ++ line.dropWhile (· != Byte.hash) = q at hbytes
  have hisCode : IsCode p :=
    (isCode_uncomment hquote).of_sublist (hline ▸ List.sublist_append_left p code)
  have hq : uncomment q = code := by
    rw [hbytes, uncomment_append hisCode] at hline
    exact List.append_cancel_left hline
  refine ⟨p, q, hbytes, ⟨hisCode, ?_, hbytes ▸ h, hp, ?_⟩, hends⟩
  · exact hquote.of_sublist (hbytes ▸ List.sublist_append_right p q)
  · rw [hq, ← Nat.zero_add p.length]
    exact hcode

theorem isCode_of_isGap {t : Text} (h : ∀ b ∈ t, Byte.isGap b = true) : IsCode t :=
  isCode_of_isSpace fun b hb => Byte.isSpace_of_isGap (h b hb)

/-- The cut can be right before the next token. -/
theorem exists_cut_before {line : Text} {ts us : List Token} {u : Token} (hquote : NoQuote line)
    (h : codeTokens line = ts ++ u :: us) :
    ∃ p gap q, line = (p ++ gap) ++ q ∧ Cut (p ++ gap) q ts (u :: us) ∧ EndsAt 0 p ts ∧
      (∀ b ∈ gap, Byte.isGap b = true) ∧ u.column = (p ++ gap).length.toUInt32 ∧
      ∃ rest, uncomment q = u.text ++ rest := by
  obtain ⟨p, q, hline, hcut, hends⟩ := exists_cut_of_codeTokens hquote h
  have hlaid := laid_scan p.length (uncomment q)
  rw [hcut.behind] at hlaid
  cases hlaid with
  | @cons _ _ gap rest _ _ bytes between column nonempty later =>
    have hq : q = gap ++ (u.text ++ rest ++ q.dropWhile (· != Byte.hash)) := by
      rw [← List.append_assoc, ← List.append_assoc, ← bytes]
      exact List.takeWhile_append_dropWhile.symm
    generalize u.text ++ rest ++ q.dropWhile (· != Byte.hash) = behind at hq
    have hgap := isCode_of_isGap between
    have hbehind : uncomment behind = u.text ++ rest := by
      rw [hq, uncomment_append hgap, List.append_assoc] at bytes
      exact List.append_cancel_left bytes
    have hbytes : line = (p ++ gap) ++ behind := by rw [hline, hq, List.append_assoc]
    refine ⟨p, gap, behind, hbytes, ⟨?_, ?_, hbytes ▸ h, ?_, ?_⟩, hends, between,
      by rw [column, List.length_append], rest, hbehind⟩
    · exact hcut.isCode.append hgap
    · exact hcut.noQuote.of_sublist (hq ▸ List.sublist_append_right gap behind)
    · have hscan := scan_gaps p.length between []
      rw [List.append_nil, scan_nil] at hscan
      rw [scan_append 0 hcut.isCode hgap.noQuote (apart_of_isSpace fun b hb =>
        Byte.isSpace_of_isGap (between b hb)), hcut.before, Nat.zero_add, hscan, List.append_nil]
    · have hscan := hcut.behind
      rw [hq, uncomment_append hgap, scan_gaps _ between] at hscan
      rw [List.length_append]
      exact hscan

/-- Nothing runs over a seam behind a token that has ended. -/
theorem apart_of_endsAt {p gap : Text} {ts : List Token} (h : EndsAt 0 p ts)
    (hgap : ∀ b ∈ gap, Byte.isGap b = true)
    (hlast : ∀ t ∈ ts.getLast?, ∃ b, t.text.getLast? = some b ∧ Byte.closes b = true) (x : Text) :
    Apart (p ++ gap) x := by
  left
  intro b hb
  rw [List.getLast?_append] at hb
  cases hend : gap.getLast? with
  | some c =>
    rw [hend] at hb
    cases hb
    exact Byte.closes_of_isSpace (Byte.isSpace_of_isGap (hgap b (List.mem_of_getLast? hend)))
  | none =>
    rw [hend] at hb
    rcases h with ⟨-, rfl⟩ | ⟨init, t, p', rfl, rfl, -⟩
    · cases hb
    · obtain ⟨c, hc, hcloses⟩ := hlast t List.getLast?_concat
      rw [List.getLast?_append, hc] at hb
      cases hb
      exact hcloses

theorem Cut.noQuote_insert {p q x : Text} {ts us : List Token} (h : Cut p q ts us)
    (hx : IsCode x) : NoQuote (p ++ (x ++ q)) := by
  intro b hb
  rcases List.mem_append.1 hb with hb | hb
  · exact h.isCode.noQuote b hb
  · exact (List.mem_append.1 hb).elim (hx.noQuote b) (h.noQuote b)

/-- Code put in leaves the tokens behind it as they are, at other columns. -/
theorem Cut.exists_insert {p q x : Text} {ts us : List Token} (h : Cut p q ts us) (hx : IsCode x)
    (hback : Apart (p ++ x) (uncomment q)) :
    ∃ us', codeTokens (p ++ (x ++ q)) = scan 0 (p ++ x) ++ us' ∧ Thinned us' us := by
  have hbehind : IsCode (uncomment q) := isCode_uncomment h.noQuote
  have hfront : IsCode (p ++ x) := h.isCode.append hx
  refine ⟨scan (0 + (p ++ x).length) (uncomment q), ?_, h.behind ▸ thinned_scan _ _ _⟩
  rw [codeTokens_of_noQuote (h.noQuote_insert hx), ← List.append_assoc, uncomment_append hfront,
    ofLine, scan_append 0 hfront hbehind.noQuote hback]

/-- **Code between two tokens** brings its own tokens and leaves the others as they are. -/
theorem Cut.insert {p q x : Text} {ts us : List Token} (h : Cut p q ts us) (hx : IsCode x)
    (hne : x ≠ []) (hfront : Apart p x) (hback : Apart x (uncomment q)) :
    Thinned (codeTokens (p ++ (x ++ q))) (ts ++ (ofLine x ++ us)) := by
  obtain ⟨us', htokens, hus⟩ := h.exists_insert hx (hback.prepend hne p)
  rw [htokens, scan_append 0 h.isCode hx.noQuote hfront, h.before, List.append_assoc]
  exact (Thinned.refl ts).append ((thinned_scan _ 0 x).append hus)

/-! ## The tokens of lines put on one line -/

theorem isCode_intercalate_space {ts : List Text} (h : ∀ t ∈ ts, IsCode t) :
    IsCode (List.intercalate " " ts) := by
  induction ts with
  | nil => exact nofun
  | cons t ts ih =>
    have hrest := ih fun u hu => h u (List.mem_cons_of_mem t hu)
    cases ts with
    | nil =>
      rw [List.intercalate_singleton]
      exact h t List.mem_cons_self
    | cons u us =>
      have hspace : IsCode " " := isCode_of_isSpace (by decide +kernel)
      rw [List.intercalate_cons_cons]
      exact ((h t List.mem_cons_self).append hspace).append hrest

theorem thinned_intercalate (pos : Nat) {ts : List Text} (h : ∀ t ∈ ts, IsCode t) :
    Thinned (scan pos (List.intercalate " " (ts.map Text.trimRight))) (ts.flatMap ofLine) := by
  induction ts generalizing pos with
  | nil => exact scan_nil pos ▸ .nil
  | cons t ts ih =>
    have ht := h t List.mem_cons_self
    have hts : ∀ u ∈ ts, IsCode u := fun u hu => h u (List.mem_cons_of_mem t hu)
    cases ts with
    | nil =>
      rw [List.map_singleton, List.intercalate_singleton, List.flatMap_singleton]
      exact thinned_trimRight pos 0 ht
    | cons u us =>
      have hrest : IsCode (List.intercalate " " ((u :: us).map Text.trimRight)) := by
        apply isCode_intercalate_space
        intro r hr
        obtain ⟨v, hv, rfl⟩ := List.mem_map.1 hr
        exact isCode_trimRight (hts v hv)
      have hjoin : List.intercalate " " ((t :: u :: us).map Text.trimRight) =
          Text.trimRight t ++
            Byte.space :: List.intercalate " " ((u :: us).map Text.trimRight) := by
        rw [List.map_cons, List.map_cons, List.intercalate_cons_cons, List.append_assoc]
        rfl
      have hspace :
          NoQuote (Byte.space :: List.intercalate " " ((u :: us).map Text.trimRight)) := by
        rintro b (_ | ⟨_, hb⟩)
        · rfl
        · exact hrest.noQuote b hb
      rw [hjoin, scan_append pos (isCode_trimRight ht) hspace (apart_of_head rfl),
        scan_gap _ _ rfl, List.flatMap_cons]
      exact (thinned_trimRight pos 0 ht).append (ih _ hts)

end Token

namespace Block

/-! ## The search for the colon -/

theorem depthAfter_append (d : Nat) (ts us : List Token) :
    depthAfter d (ts ++ us) = (depthAfter d ts).bind (depthAfter · us) := by
  induction ts generalizing d with
  | nil => rfl
  | cons t ts ih =>
    simp only [List.cons_append, depthAfter]
    split
    · exact ih _
    · split
      · exact ih _
      · split
        · rfl
        · exact ih _

/-- A comment means nothing to the search. -/
theorem depthAfter_dropComment (d : Nat) (ts : List Token) :
    depthAfter d (Token.dropComment ts) = depthAfter d ts := by
  rcases Token.dropComment_spec ts with h | ⟨comment, hcomment, h⟩
  · rw [h]
  · have hskip : ∀ d, depthAfter d [comment] = some d := by
      intro d
      simp [depthAfter, opens, closes, Token.isPunct, hcomment]
    calc depthAfter d (Token.dropComment ts)
        = depthAfter d (Token.dropComment ts ++ [comment]) := by
          rw [depthAfter_append, funext hskip, Option.bind_fun_some]
      _ = depthAfter d ts := by rw [← h]

/-- The lines before the one with the colon leave a bracket open. -/
theorem linesToColon_spec {depth n : Nat} {ls : List Text} (h : linesToColon depth ls = some n) :
    ∃ above line below d, ls = above ++ line :: below ∧ above.length = n ∧
      depthAfter depth (above.flatMap Token.codeTokens) = some d ∧ (above ≠ [] → 0 < d) ∧
      depthAfter d (Token.codeTokens line) = none := by
  induction ls generalizing depth n with
  | nil => cases h
  | cons line rest ih =>
    have hline := depthAfter_dropComment depth (Token.ofLine line)
    unfold linesToColon at h
    split at h
    · rename_i hcolon
      cases h
      exact ⟨[], line, rest, depth, rfl, rfl, rfl, fun hne => absurd rfl hne, hline.trans hcolon⟩
    · cases h
    · rename_i d hd
      obtain ⟨n, hn, rfl⟩ := Option.map_eq_some_iff.1 h
      obtain ⟨above, last, below, deep, rfl, hlength, habove, hopen, hcolon⟩ := ih hn
      refine ⟨line :: above, last, below, deep, rfl, congrArg (· + 1) hlength, ?_, ?_, hcolon⟩
      · rw [List.flatMap_cons, depthAfter_append, Token.codeTokens, hline, hd, Option.bind_some,
          habove]
      · intro _
        by_cases hnil : above = []
        · rw [hnil] at habove
          cases habove
          exact Nat.succ_pos d
        · exact hopen hnil

/-- The search finds its colon on the same line when that line keeps it. -/
theorem linesToColon_set {depth n : Nat} {ls : List Text} {line line' : Text}
    (h : linesToColon depth ls = some n) (hline : ls[n]? = some line)
    (hcolon : ∀ d, depthAfter d (Token.ofLine line) = none →
      depthAfter d (Token.ofLine line') = none) :
    linesToColon depth (ls.set n line') = some n := by
  induction ls generalizing depth n with
  | nil => cases h
  | cons first rest ih =>
    unfold linesToColon at h
    split at h
    · rename_i hfirst
      cases h
      cases hline
      rw [List.set_cons_zero, linesToColon, hcolon depth hfirst]
    · cases h
    · rename_i d hd
      obtain ⟨n, hn, rfl⟩ := Option.map_eq_some_iff.1 h
      rw [List.set_cons_succ, linesToColon, hd]
      simp only [ih hn hline, Option.map_some]

/-- A header ends where it ended when its last line keeps the colon. -/
theorem headerEnd?_set {lines : List Text} {i last : Nat} {line line' : Text}
    (h : headerEnd? lines i = some last) (hline : lines[last]? = some line)
    (hcolon : ∀ d, depthAfter d (Token.codeTokens line) = none →
      depthAfter d (Token.codeTokens line') = none) :
    headerEnd? (lines.set last line') i = some last := by
  obtain ⟨n, hn, rfl⟩ := Option.map_eq_some_iff.1 h
  rw [← List.getElem?_drop] at hline
  rw [headerEnd?, List.drop_set, if_neg (Nat.not_lt.2 (Nat.le_add_right i n)),
    Nat.add_sub_cancel_left, linesToColon_set hn hline]
  · rfl
  · intro d hd
    rw [← depthAfter_dropComment] at hd ⊢
    exact hcolon d hd

/-- The search looks at no line behind the one with the colon. -/
theorem linesToColon_take {depth n : Nat} {ls : List Text} (h : linesToColon depth ls = some n)
    (below : List Text) : linesToColon depth (ls.take (n + 1) ++ below) = some n := by
  induction ls generalizing depth n with
  | nil => cases h
  | cons line rest ih =>
    unfold linesToColon at h
    split at h
    · rename_i hcolon
      cases h
      rw [List.take_succ_cons, List.cons_append, linesToColon, hcolon]
    · cases h
    · rename_i d hd
      obtain ⟨n, hn, rfl⟩ := Option.map_eq_some_iff.1 h
      rw [List.take_succ_cons, List.cons_append, linesToColon, hd]
      simp only [ih hn, Option.map_some]

/-- A header ends where it ended when lines are put in behind it. -/
theorem headerEnd?_take {lines : List Text} {i last : Nat} (h : headerEnd? lines i = some last)
    (below : List Text) : headerEnd? (lines.take (last + 1) ++ below) i = some last := by
  have hle := headerEnd?_spec h
  obtain ⟨n, hn, rfl⟩ := Option.map_eq_some_iff.1 h
  have hdrop : (lines.take (i + n + 1) ++ below).drop i = (lines.drop i).take (n + 1) ++ below := by
    rw [List.drop_append_of_le_length (by rw [List.length_take]; omega), List.drop_take,
      Nat.add_assoc, Nat.add_sub_cancel_left]
  rw [headerEnd?, hdrop, linesToColon_take hn]
  rfl

/-! ## The tokens of a header -/

/-- The lines of a header. -/
def headerLines (lines : List Text) (i last : Nat) : List Text :=
  (lines.drop i).take (last + 1 - i)

/-- The tokens of the lines of a header, without the comments. -/
def headerTokens (lines : List Text) (i last : Nat) : List Token :=
  (headerLines lines i last).flatMap Token.codeTokens

theorem headerLines_eq_cons {lines : List Text} {i last : Nat} (h : i ≤ last)
    (hlast : last < lines.length) :
    headerLines lines i last =
      (lines[i]?).getD [] :: (lines.drop (i + 1)).take (last - i) := by
  have hi : i < lines.length := Nat.lt_of_le_of_lt h hlast
  rw [headerLines, List.drop_eq_getElem_cons hi, Nat.sub_add_comm h, List.take_succ_cons,
    List.getElem?_eq_getElem hi, Option.getD_some]

theorem length_lt_of_mem_headerLines {lines : List Text} {i last n : Nat}
    (h : ∀ line ∈ lines, line.length < n) : ∀ line ∈ headerLines lines i last, line.length < n :=
  fun line hline => h line (List.mem_of_mem_drop (List.mem_of_mem_take hline))

theorem headerLines_set {lines above : List Text} {i last : Nat} {line : Text}
    (h : headerLines lines i last = above ++ [line]) (hlast : i + above.length = last)
    (line' : Text) : headerLines (lines.set last line') i last = above ++ [line'] := by
  unfold headerLines at h ⊢
  rw [List.drop_set, if_neg (by omega), List.take_set, h, ← hlast, Nat.add_sub_cancel_left,
    List.set_append_right _ _ (Nat.le_refl _), Nat.sub_self]
  rfl

/-- **A header text reads like its lines.** -/
theorem thinned_headerText {lines : List Text} {i last : Nat}
    (hend : headerEnd? lines i = some last)
    (hquote : ∀ line ∈ headerLines lines i last, NoQuote line)
    (hsize : ∀ line ∈ headerLines lines i last, line.length < UInt32.size) :
    Token.Thinned (Token.ofLine (headerText lines i)) (headerTokens lines i last) := by
  have hcode : ∀ t ∈ (headerLines lines i last).map Token.uncomment, IsCode t := by
    intro t ht
    obtain ⟨line, hline, rfl⟩ := List.mem_map.1 ht
    exact Token.isCode_uncomment (hquote line hline)
  have hviews : (headerLines lines i last).map Token.codeOf =
      ((headerLines lines i last).map Token.uncomment).map Text.trimRight := by
    rw [List.map_map]
    apply List.map_congr_left
    intro line hline
    exact Token.codeOf_of_noQuote (hquote line hline) (hsize line hline)
  have htokens : headerTokens lines i last =
      ((headerLines lines i last).map Token.uncomment).flatMap Token.ofLine := by
    rw [headerTokens, List.flatMap_map, List.flatMap_def, List.flatMap_def]
    congr 1
    apply List.map_congr_left
    intro line hline
    exact Token.codeTokens_of_noQuote (hquote line hline)
  have htext : headerText lines i =
      Text.trim (List.intercalate " " ((headerLines lines i last).map Token.codeOf)) := by
    rw [headerText, hend]
    rfl
  rw [htext, hviews, htokens]
  refine (Token.thinned_trim 0 0 ?_).trans (Token.thinned_intercalate 0 hcode)
  apply Token.isCode_intercalate_space
  intro t ht
  obtain ⟨u, hu, rfl⟩ := List.mem_map.1 ht
  exact Token.isCode_trimRight (hcode u hu)

/-- A header ends on the first line that closes all of its brackets. -/
theorem exists_last_tokens {lines : List Text} {i last : Nat}
    (hend : headerEnd? lines i = some last) {front rest : List Token} {colon : Token}
    (hfront : depthAfter 0 front = some 0)
    (hne : front ≠ []) (hcolon : depthAfter 0 [colon] = none)
    (htokens : headerTokens lines i last = front ++ colon :: rest) :
    ∃ above line ts, headerLines lines i last = above ++ [line] ∧ i + above.length = last ∧
      lines[last]? = some line ∧ ts ≠ [] ∧ above.flatMap Token.codeTokens ++ ts = front ∧
      Token.codeTokens line = ts ++ colon :: rest := by
  obtain ⟨n, hn, rfl⟩ := Option.map_eq_some_iff.1 hend
  obtain ⟨above, line, below, d, hdrop, rfl, habove, hopen, -⟩ := linesToColon_spec hn
  have hlines : headerLines lines i (i + above.length) = above ++ [line] := by
    rw [headerLines, hdrop, Nat.add_assoc, Nat.add_sub_cancel_left, List.take_length_add_append]
    rfl
  have hlast : lines[i + above.length]? = some line := by
    rw [← List.getElem?_drop, hdrop, List.getElem?_append_right (Nat.le_refl _), Nat.sub_self]
    rfl
  rw [headerTokens, hlines, List.flatMap_append, List.flatMap_singleton] at htokens
  -- the lines above leave a bracket open, so the front goes on behind them
  have hunfinished : above.flatMap Token.codeTokens ≠ front := by
    intro heq
    rw [heq, hfront] at habove
    cases habove
    refine absurd (hopen ?_) (Nat.lt_irrefl 0)
    rintro rfl
    exact hne heq.symm
  rcases List.append_eq_append_iff.1 htokens with ⟨ts, hts, hline⟩ | ⟨more, hmore, hline⟩
  · refine ⟨above, line, ts, hlines, rfl, hlast, ?_, hts.symm, hline⟩
    rintro rfl
    exact hunfinished (by rw [hts, List.append_nil])
  · cases more with
    | nil => exact absurd (by rw [hmore, List.append_nil]) hunfinished
    | cons t more =>
      obtain ⟨rfl, -⟩ := List.cons.inj hline
      rw [hmore, depthAfter_append, hfront, Option.bind_some, ← List.singleton_append,
        depthAfter_append, hcolon] at habove
      cases habove

end Block

end MojoLint
