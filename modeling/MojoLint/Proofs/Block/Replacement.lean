import MojoLint.Proofs.Block.Body
import MojoLint.Proofs.Block.Reading
import MojoLint.Proofs.Token.CodeView

/-!
# Blocks with another body

The lines of a body can be replaced by others (`withBody`). A header whose brackets stay open runs on
over the body, so a replacement can change the header text. Where the lines of both bodies hold no
bracket and no colon, the header either ends before the body and keeps its text, or it runs over all
of the body and has the body's code in the middle (`headerText_cases`).
-/

namespace MojoLint

namespace Text

theorem mem_intercalate {sep t : Text} {ts : List Text} (ht : t ∈ ts) {b : UInt8} (hb : b ∈ t) :
    b ∈ sep.intercalate ts := by
  induction ts with
  | nil => cases ht
  | cons u ts ih =>
    cases ts with
    | nil => rwa [List.intercalate_singleton, ← List.mem_singleton.1 ht]
    | cons v vs =>
      rw [List.intercalate_cons_cons, List.append_assoc]
      rcases List.mem_cons.1 ht with rfl | ht
      · exact List.mem_append_left _ hb
      · exact List.mem_append_right _ (List.mem_append_right _ (ih ht))

theorem intercalate_append (sep : Text) {ts us : List Text} (hts : ts ≠ []) (hus : us ≠ []) :
    sep.intercalate (ts ++ us) = sep.intercalate ts ++ (sep ++ sep.intercalate us) := by
  induction ts with
  | nil => exact absurd rfl hts
  | cons t ts ih =>
    obtain ⟨u, us, rfl⟩ := List.exists_cons_of_ne_nil hus
    cases ts with
    | nil =>
      rw [List.singleton_append, List.intercalate_cons_cons, List.intercalate_singleton,
        List.append_assoc]
    | cons v vs =>
      rw [List.cons_append, List.cons_append, List.intercalate_cons_cons, ← List.cons_append,
        ih (List.cons_ne_nil v vs), List.intercalate_cons_cons]
      simp only [List.append_assoc]

theorem length_intercalate {sep : Text} {ts : List Text} (h : ts ≠ []) :
    (sep.intercalate ts).length + sep.length = (ts.map fun t => t.length + sep.length).sum := by
  induction ts with
  | nil => exact absurd rfl h
  | cons t ts ih =>
    cases ts with
    | nil => simp
    | cons u us =>
      have hrest := ih (List.cons_ne_nil u us)
      rw [List.intercalate_cons_cons, List.length_append, List.length_append, List.map_cons,
        List.sum_cons, ← hrest]
      omega

theorem length_intercalate_of_perm {sep : Text} {ts us : List Text} (h : ts.Perm us) :
    (sep.intercalate ts).length = (sep.intercalate us).length := by
  by_cases hus : us = []
  · rw [hus] at h
    rw [h.eq_nil, hus]
  · have hts : ts ≠ [] := by
      rintro rfl
      exact hus h.nil_eq.symm
    have hsum := (h.map fun t => t.length + sep.length).sum_nat
    rw [← length_intercalate hts, ← length_intercalate hus] at hsum
    exact Nat.add_right_cancel hsum

/-- Trimming stops at code. -/
theorem trim_between {front back : Text} {a b : UInt8} (ha : a ∈ front)
    (hfront : Byte.isSpace a = false) (hb : b ∈ back) (hback : Byte.isSpace b = false) (t : Text) :
    trim (front ++ (t ++ back)) = trimLeft front ++ (t ++ trimRight back) := by
  have hleft : trimLeft (front ++ (t ++ back)) = trimLeft front ++ (t ++ back) := by
    rw [trimLeft, List.dropWhile_append, if_neg]
    · rfl
    rw [List.isEmpty_iff]
    intro hnil
    rw [List.dropWhile_eq_nil_iff.1 hnil a ha] at hfront
    cases hfront
  obtain ⟨before, after, rfl⟩ := List.append_of_mem hb
  rw [trim, hleft, ← List.append_assoc t, ← List.append_assoc, trimRight_append hback,
    trimRight_append hback, List.append_assoc, List.append_assoc]

/-- Trimming leaves texts alone that stand between code. -/
theorem trim_intercalate {as ts bs : List Text} {a b : UInt8} (ha : a ∈ List.intercalate " " as)
    (hfront : Byte.isSpace a = false) (hts : ts ≠ []) (hb : b ∈ List.intercalate " " bs)
    (hback : Byte.isSpace b = false) :
    trim (List.intercalate " " (as ++ (ts ++ bs))) =
      trimLeft (List.intercalate " " as) ++ Byte.space ::
        (List.intercalate " " ts ++ Byte.space :: trimRight (List.intercalate " " bs)) := by
  have has : as ≠ [] := by
    rintro rfl
    cases ha
  have hbs : bs ≠ [] := by
    rintro rfl
    cases hb
  have hjoin : List.intercalate " " (as ++ (ts ++ bs)) = List.intercalate " " as ++
      ((Byte.space :: (List.intercalate " " ts ++ [Byte.space])) ++ List.intercalate " " bs) := by
    rw [intercalate_append _ has (List.append_ne_nil_of_left_ne_nil hts bs),
      intercalate_append _ hts hbs]
    simp only [List.cons_append, List.append_assoc]
    rfl
  rw [hjoin, trim_between ha hfront hb hback]
  simp only [List.cons_append, List.append_assoc, List.nil_append]

end Text

/-- A bracket of any kind, or a colon. -/
def Byte.isStructure (b : UInt8) : Bool :=
  b == 40 || b == 41 || b == 91 || b == 93 || b == 123 || b == 125 || b == 58

/-! ## White space and comments -/

namespace Token

/-- White space in front of a text is lexed on its own. -/
theorem scan_white (pos : Nat) {blank : Text} (h : ∀ b ∈ blank, Byte.isSpace b = true)
    (rest : Text) :
    ∃ ts, scan pos (blank ++ rest) = ts ++ scan (pos + blank.length) rest ∧
      ∀ t ∈ ts, t.IsBlank := by
  have hspace : ∀ {b}, Byte.isSpace b = true →
      Byte.isIdentStart b = false ∧ Byte.isDigit b = false ∧ Byte.isQuote b = false ∧
        Byte.isLiteralLetter b = false ∧ b ≠ Byte.hash := @(Byte.all (by decide))
  induction blank generalizing pos with
  | nil => exact ⟨[], rfl, List.forall_mem_nil _⟩
  | cons b blank ih =>
    obtain ⟨hb, hblank⟩ := List.forall_mem_cons.1 h
    obtain ⟨ts, hts, hall⟩ := ih (pos + 1) hblank
    have hpos : pos + (b :: blank).length = pos + 1 + blank.length := by
      rw [List.length_cons]
      omega
    rw [hpos, List.cons_append]
    by_cases hgap : Byte.isGap b = true
    · exact ⟨ts, by rw [scan_gap pos _ hgap, hts], hall⟩
    · -- a vertical tab, a form feed or a line feed is a token by itself
      obtain ⟨hident, hdigit, hquote, hletter, hhash⟩ := hspace hb
      have hliteral : literal? (b :: (blank ++ rest)) = none := by
        rw [literal?, List.take_succ_cons, List.takeWhile_cons_of_neg (by rw [hletter]; nofun)]
        simp [hquote]
      have hsize : punctSize (b :: (blank ++ rest)) ≤ 1 :=
        punctSize_of_apart (u := []) (.inl (by rintro _ ⟨⟩; exact Byte.closes_of_isSpace hb))
      have hlex : lexeme b (blank ++ rest) = (.punct, 0) := by
        rw [lexeme, if_neg hhash, hliteral]
        simp only [hident, hdigit, Bool.false_eq_true, if_false, Prod.mk.injEq, true_and]
        omega
      rw [scan_lexeme pos _ hgap, hlex]
      refine ⟨⟨.punct, [b], pos.toUInt32⟩ :: ts, ?_, List.forall_mem_cons.2 ⟨⟨rfl, ?_⟩, hall⟩⟩
      · rw [List.cons_append, ← hts]
        rfl
      · exact List.forall_mem_singleton.2 hb

/-- There is nothing on a blank line or a comment but white space and the comment. -/
theorem tokens_of_isBlankOrComment {line : Text} (h : Line.isBlankOrComment line = true) :
    ∀ t ∈ ofLine line, t.kind = .comment ∨ t.IsBlank := by
  have hwhite : ∀ b ∈ line.takeWhile Byte.isSpace, Byte.isSpace b = true :=
    List.all_eq_true.1 List.all_takeWhile
  obtain ⟨ts, hts, hblank⟩ := scan_white 0 hwhite (Text.trimLeft line)
  have hline : ofLine line = ts ++ scan (0 + (line.takeWhile Byte.isSpace).length)
      (Text.trimLeft line) := by
    rw [← hts, Text.trimLeft, List.takeWhile_append_dropWhile, ofLine]
  have hrest : Text.trimLeft line = [] ∨ ∃ c, Text.trimLeft line = Byte.hash :: c := by
    obtain ⟨blank, heq, hall⟩ := Text.exists_trimRight_append (Text.trimLeft line)
    simp only [Line.isBlankOrComment, Line.isBlank, Text.trim, Bool.or_eq_true,
      List.isEmpty_iff, beq_iff_eq] at h
    rcases h with h | h
    · left
      rw [h, List.nil_append] at heq
      have hhead := List.head?_dropWhile_not Byte.isSpace line
      rw [← Text.trimLeft, heq] at hhead
      rw [heq]
      cases blank with
      | nil => rfl
      | cons b blank =>
        simp [hall b List.mem_cons_self] at hhead
    · right
      obtain ⟨c, hc⟩ := List.head?_eq_some_iff.1 h
      rw [hc] at heq
      exact ⟨c ++ blank, heq⟩
  intro t ht
  rw [hline] at ht
  rcases List.mem_append.1 ht with ht | ht
  · exact .inr (hblank t ht)
  · rcases hrest with hrest | ⟨c, hrest⟩
    · rw [hrest, scan_nil] at ht
      cases ht
    · rw [hrest, scan_hash, List.mem_singleton] at ht
      exact .inl (by rw [ht])

end Token

namespace Block

theorem depthAfter_of_forall {ts : List Token}
    (h : ∀ t ∈ ts, t.kind = .comment ∨ ∀ b ∈ t.text, Byte.isStructure b = false) (depth : Nat) :
    depthAfter depth ts = some depth := by
  induction ts with
  | nil => rfl
  | cons t ts ih =>
    obtain ⟨ht, hts⟩ := List.forall_mem_cons.1 h
    have hsign : ∀ b, Byte.isStructure b = true → t.isPunct [b] = false := by
      intro b hb
      rw [Token.isPunct, Bool.and_eq_false_iff, beq_eq_false_iff_ne, beq_eq_false_iff_ne]
      rcases ht with hcomment | hbytes
      · exact .inl (by simp [hcomment])
      · right
        intro htext
        rw [hbytes b (by rw [htext]; exact List.mem_singleton_self b)] at hb
        cases hb
    have hopens : opens t = false := by
      simp only [opens, Bool.or_eq_false_iff]
      exact ⟨⟨hsign 40 rfl, hsign 91 rfl⟩, hsign 123 rfl⟩
    have hcloses : closes t = false := by
      simp only [closes, Bool.or_eq_false_iff]
      exact ⟨⟨hsign 41 rfl, hsign 93 rfl⟩, hsign 125 rfl⟩
    have hcolon : t.isPunct ":" = false := hsign 58 rfl
    rw [depthAfter, hopens, hcloses, hcolon]
    exact ih hts

/-! ## Replacing the body -/

/-- The lines with others in place of the body. -/
def withBody (b : Block) (lines body : List Text) : List Text :=
  lines.take b.first ++ (body ++ lines.drop (max b.first b.stop))

variable {b : Block} {lines : List Text}

theorem withBody_body (b : Block) (lines : List Text) : b.withBody lines (b.body lines) = lines := by
  have hbelow : lines.drop (max b.first b.stop) = (lines.drop b.first).drop (b.stop - b.first) := by
    rw [List.drop_drop]
    congr 1
    omega
  rw [withBody, body, hbelow, List.take_append_drop, List.take_append_drop]

section

variable {ls : List Text} (h : ls.length = (b.body lines).length)

include h

/-- Behind the lines above the body stand the new ones, and the lines below start where they
started. -/
theorem withBody_spec :
    (b.withBody lines ls).take b.first = lines.take b.first ∧ b.body (b.withBody lines ls) = ls ∧
      (b.withBody lines ls).drop (max b.first b.stop) = lines.drop (max b.first b.stop) := by
  rw [body, List.length_take, List.length_drop] at h
  rcases Nat.lt_or_ge lines.length b.first with hlong | hfirst
  · have hnil : ls = [] := List.length_eq_zero_iff.1 (by omega)
    have hsame : b.withBody lines ls = lines := by
      rw [withBody, hnil, List.nil_append, List.take_of_length_le (Nat.le_of_lt hlong),
        List.drop_of_length_le (by omega), List.append_nil]
    rw [hsame, body, List.drop_of_length_le (Nat.le_of_lt hlong), List.take_nil, hnil]
    exact ⟨rfl, rfl, rfl⟩
  · have htake := List.length_take_of_le hfirst
    have hdrop : (b.withBody lines ls).drop b.first = ls ++ lines.drop (max b.first b.stop) :=
      List.drop_left' htake
    have hmax : max b.first b.stop = b.first + (b.stop - b.first) := by omega
    refine ⟨List.take_left' htake, ?_, ?_⟩
    · rw [body, hdrop]
      rcases Nat.le_total b.stop lines.length with hstop | hstop
      · exact List.take_left' (by omega)
      · rw [List.drop_of_length_le (by omega), List.append_nil,
          List.take_of_length_le (by omega)]
    · conv => lhs; rw [hmax, ← List.drop_drop, hdrop]
      rcases Nat.le_total b.stop lines.length with hstop | hstop
      · exact List.drop_left' (by omega)
      · rw [List.drop_of_length_le (i := max b.first b.stop) (by omega), List.append_nil,
          List.drop_of_length_le (by omega)]

theorem withBody_withBody (ls' : List Text) :
    b.withBody (b.withBody lines ls) ls' = b.withBody lines ls' := by
  obtain ⟨htake, -, hdrop⟩ := withBody_spec h
  rw [withBody, htake, hdrop]
  rfl

end

/-! ## Lines that a header passes over -/

/-- The lines leave the bracket depth as it is and hold no colon outside all brackets. -/
def Passive (ls : List Text) : Prop :=
  ∀ line ∈ ls, ∀ depth, depthAfter depth (Token.ofLine line) = some depth

theorem linesToColon_passive {xs : List Text} (h : Passive xs) {depth : Nat} (hdepth : 0 < depth)
    (ls : List Text) :
    linesToColon depth (xs ++ ls) = (linesToColon depth ls).map (xs.length + ·) := by
  induction xs with
  | nil => simp
  | cons line xs ih =>
    obtain ⟨hline, hxs⟩ := List.forall_mem_cons.1 h
    rw [List.cons_append, linesToColon, hline]
    cases depth with
    | zero => cases hdepth
    | succ d =>
      simp only [ih hxs, Option.map_map, List.length_cons]
      congr 1
      funext n
      simp only [Function.comp_apply]
      omega

theorem linesToColon_append_congr {as xs ys : List Text} (has : as ≠ [])
    (h : ∀ depth, 0 < depth → linesToColon depth xs = linesToColon depth ys) (depth : Nat) :
    linesToColon depth (as ++ xs) = linesToColon depth (as ++ ys) := by
  induction as generalizing depth with
  | nil => exact absurd rfl has
  | cons line as ih =>
    rw [List.cons_append, List.cons_append, linesToColon, linesToColon]
    split
    · rfl
    · rfl
    · rename_i d _
      cases as with
      | nil => rw [List.nil_append, List.nil_append, h (d + 1) (Nat.succ_pos d)]
      | cons a as => rw [ih (List.cons_ne_nil a as)]

/-- A header that ends behind its first lines has a bracket open there. -/
theorem linesToColon_append_cases {as ls : List Text} {depth n : Nat} (has : as ≠ [])
    (h : linesToColon depth (as ++ ls) = some n) :
    n < as.length ∨ ∃ d m, 0 < d ∧ linesToColon d ls = some m ∧ n = as.length + m := by
  induction as generalizing depth n with
  | nil => exact absurd rfl has
  | cons line as ih =>
    rw [List.cons_append, linesToColon] at h
    split at h
    · cases h
      exact .inl (Nat.succ_pos _)
    · cases h
    · rename_i d _
      obtain ⟨m, hm, rfl⟩ := Option.map_eq_some_iff.1 h
      rw [List.length_cons]
      cases as with
      | nil => exact .inr ⟨d + 1, m, Nat.succ_pos d, hm, Nat.add_comm m 1⟩
      | cons a as =>
        rcases ih (List.cons_ne_nil a as) hm with hlt | ⟨d', m', hd', hm', rfl⟩
        · exact .inl (Nat.succ_lt_succ hlt)
        · exact .inr ⟨d', m', hd', hm', by omega⟩

theorem exists_opens_of_depthAfter {ts : List Token} {d d' : Nat} (h : depthAfter d ts = some d')
    (hlt : d < d') : ∃ t ∈ ts, opens t = true := by
  induction ts generalizing d with
  | nil =>
    cases h
    exact absurd hlt (Nat.lt_irrefl _)
  | cons t ts ih =>
    unfold depthAfter at h
    split at h
    · rename_i hopens
      exact ⟨t, List.mem_cons_self, hopens⟩
    · obtain ⟨u, hu, hopens⟩ : ∃ u ∈ ts, opens u = true := by
        split at h
        · exact ih h (by omega)
        · split at h
          · cases h
          · exact ih h hlt
      exact ⟨u, List.mem_cons_of_mem t hu, hopens⟩

theorem exists_colon_of_depthAfter {ts : List Token} {d : Nat} (h : depthAfter d ts = none) :
    ∃ t ∈ ts, t.isPunct ":" = true := by
  induction ts generalizing d with
  | nil => cases h
  | cons t ts ih =>
    unfold depthAfter at h
    split at h
    · exact (ih h).imp fun u hu => ⟨List.mem_cons_of_mem t hu.1, hu.2⟩
    · split at h
      · exact (ih h).imp fun u hu => ⟨List.mem_cons_of_mem t hu.1, hu.2⟩
      · split at h
        · rename_i hcolon
          exact ⟨t, List.mem_cons_self, (Bool.and_eq_true_iff.1 hcolon).1⟩
        · exact (ih h).imp fun u hu => ⟨List.mem_cons_of_mem t hu.1, hu.2⟩

/-! ## The text of such a header -/

theorem headerText_eq (lines : List Text) (i : Nat) :
    headerText lines i = Text.trim (List.intercalate " "
      (((lines.drop i).take ((linesToColon 0 (lines.drop i)).getD 0 + 1)).map Token.codeOf)) := by
  rw [headerText, headerEnd?]
  cases linesToColon 0 (lines.drop i) with
  | none => simp
  | some n => simp [Nat.add_assoc]

theorem headerText_drop (lines : List Text) (i : Nat) :
    headerText lines i = headerText (lines.drop i) 0 := by
  rw [headerText_eq, headerText_eq, List.drop_zero]

/-- A sign of one byte can be read off the code view. -/
theorem mem_codeOf_of_isPunct {line : Text} {t : Token} (ht : t ∈ Token.ofLine line) {b : UInt8}
    (h : t.isPunct [b] = true) (hspace : Byte.isSpace b = false) : b ∈ Token.codeOf line := by
  rw [Token.isPunct, Bool.and_eq_true, beq_iff_eq, beq_iff_eq] at h
  refine Token.mem_codeOf_of_mem_code ht (by simp [h.1]) ?_ hspace
  rw [Token.code, h.1, h.2]
  exact List.mem_singleton_self b

/-- The code of a header that goes on shows the bracket that it leaves open. -/
theorem exists_bracket_of_linesToColon {line : Text} {rest : List Text} {n : Nat}
    (h : linesToColon 0 (line :: rest) = some (n + 1)) :
    ∃ b ∈ Token.codeOf line, Byte.isSpace b = false := by
  rw [linesToColon] at h
  split at h
  · cases h
  · cases h
  · rename_i d hd
    obtain ⟨t, ht, hopens⟩ := exists_opens_of_depthAfter hd (Nat.succ_pos d)
    simp only [opens, Bool.or_eq_true] at hopens
    rcases hopens with (hopens | hopens) | hopens
    · exact ⟨40, mem_codeOf_of_isPunct ht hopens rfl, rfl⟩
    · exact ⟨91, mem_codeOf_of_isPunct ht hopens rfl, rfl⟩
    · exact ⟨123, mem_codeOf_of_isPunct ht hopens rfl, rfl⟩

/-- The code of a header shows the colon that ends it. -/
theorem exists_colon_of_linesToColon {ls : List Text} {d n : Nat}
    (h : linesToColon d ls = some n) :
    ∃ last, last.length = n + 1 ∧ last <+: ls ∧
      ∃ b ∈ List.intercalate " " (last.map Token.codeOf), Byte.isSpace b = false := by
  obtain ⟨above, line, below, d', rfl, rfl, -, -, hcolon⟩ := linesToColon_spec h
  obtain ⟨t, ht, hsign⟩ := exists_colon_of_depthAfter hcolon
  obtain ⟨comment, hall⟩ := Token.exists_append_dropComment (Token.ofLine line)
  have hmem : t ∈ Token.ofLine line := by
    rw [hall]
    exact List.mem_append_left comment ht
  refine ⟨above ++ [line], List.length_append, ⟨below, by simp⟩, 58, ?_, rfl⟩
  refine Text.mem_intercalate (List.mem_map.2 ⟨line, by simp, rfl⟩) ?_
  exact mem_codeOf_of_isPunct hmem hsign rfl

/-- **A header and the lines behind its start** that hold no bracket and no colon: it ends in front
of them, or it has their code in the middle. -/
theorem headerText_cases {as xs : List Text} (has : as ≠ []) (hxs : Passive xs) (ls : List Text) :
    (∀ ys, Passive ys → ys.length = xs.length →
        headerText (as ++ (ys ++ ls)) 0 = headerText (as ++ (xs ++ ls)) 0) ∨
      ∃ front back : Text, ∀ ys, Passive ys → ys.length = xs.length → ys ≠ [] →
        headerText (as ++ (ys ++ ls)) 0 =
          front ++ Byte.space ::
            (List.intercalate " " (ys.map Token.codeOf) ++ Byte.space :: back) := by
  have hcongr : ∀ ys, Passive ys → ys.length = xs.length →
      linesToColon 0 (as ++ (ys ++ ls)) = linesToColon 0 (as ++ (xs ++ ls)) := by
    intro ys hys hlength
    apply linesToColon_append_congr has
    intro depth hdepth
    rw [linesToColon_passive hys hdepth, linesToColon_passive hxs hdepth, hlength]
  have htext : ∀ ys, Passive ys → ys.length = xs.length →
      headerText (as ++ (ys ++ ls)) 0 = Text.trim (List.intercalate " " (((as ++ (ys ++ ls)).take
        ((linesToColon 0 (as ++ (xs ++ ls))).getD 0 + 1)).map Token.codeOf)) := by
    intro ys hys hlength
    rw [headerText_eq, List.drop_zero, hcongr ys hys hlength]
  cases hn : linesToColon 0 (as ++ (xs ++ ls)) with
  | none =>
    left
    intro ys hys hlength
    have hpos : 0 + 1 ≤ as.length := List.length_pos_iff.2 has
    rw [htext ys hys hlength, htext xs hxs rfl, hn, Option.getD_none,
      List.take_append_of_le_length hpos, List.take_append_of_le_length hpos]
  | some n =>
    rcases linesToColon_append_cases has hn with hlt | ⟨d, m, hd, hm, rfl⟩
    · left
      intro ys hys hlength
      rw [htext ys hys hlength, htext xs hxs rfl, hn, Option.getD_some,
        List.take_append_of_le_length hlt, List.take_append_of_le_length hlt]
    · right
      rw [linesToColon_passive hxs hd] at hm
      obtain ⟨k, hk, rfl⟩ := Option.map_eq_some_iff.1 hm
      obtain ⟨last, hlast, ⟨below, rfl⟩, b, hb, hback⟩ := exists_colon_of_linesToColon hk
      obtain ⟨line, as, rfl⟩ := List.exists_cons_of_ne_nil has
      obtain ⟨a, ha, hfront⟩ : ∃ a ∈ Token.codeOf line, Byte.isSpace a = false := by
        apply exists_bracket_of_linesToColon (n := as.length + (xs.length + k))
        rw [← List.cons_append, hn, List.length_cons, Nat.add_right_comm]
      have ha' : a ∈ List.intercalate " " ((line :: as).map Token.codeOf) :=
        Text.mem_intercalate (List.mem_map.2 ⟨line, List.mem_cons_self, rfl⟩) ha
      refine ⟨Text.trimLeft (List.intercalate " " ((line :: as).map Token.codeOf)),
        Text.trimRight (List.intercalate " " (last.map Token.codeOf)), ?_⟩
      intro ys hys hlength hne
      have htake : ((line :: as) ++ (ys ++ (last ++ below))).take
          ((line :: as).length + (xs.length + k) + 1) = (line :: as) ++ (ys ++ last) := by
        rw [Nat.add_assoc, Nat.add_assoc, ← hlast, ← hlength, List.take_length_add_append,
          List.take_length_add_append, List.take_left]
      rw [htext ys hys hlength, hn, Option.getD_some, htake, List.map_append, List.map_append,
        Text.trim_intercalate ha' hfront (by rwa [Ne, List.map_eq_nil_iff]) hb hback]

end Block

end MojoLint
