import MojoLint.Proofs.Balance.Neutral
import MojoLint.Token.CodeView

/-!
# Lexing code in pieces

Code is text without quotes and without comments. Its tokens do not look far ahead, so code can be
lexed in pieces: a text and what follows it have the tokens of the two, when no token can run over
the seam between them (`Apart`, `scan_append`), and a scan can be cut between any two of its tokens
(`exists_cut_of_scan`). A line without quotes is code up to its comment, and its code view is that
code without the white space at its end (`codeOf_of_noQuote`).
-/

namespace MojoLint

namespace Byte

/-- A token that ends in this byte has ended, whatever follows. -/
def closes (b : UInt8) : Bool := isSpace b || b == 40 || b == 41 || b == 91 || b == 93 || b == 44

/-- No token goes on with this byte. -/
def breaks (b : UInt8) : Bool :=
  !(isNumberPart b || isQuote b || b == slash || b == equals || b == 42 || b == less ||
    b == greater)

theorem isNumberPart_of_closes : ∀ {b : UInt8}, closes b = true → isNumberPart b = false :=
  @(all (by decide))

theorem isNumberPart_of_breaks : ∀ {b : UInt8}, breaks b = true → isNumberPart b = false :=
  @(all (by decide))

theorem isNumberPart_of_isIdentPart : ∀ {b : UInt8}, isIdentPart b = true → isNumberPart b = true :=
  @(all (by decide))

theorem breaks_of_isSpace : ∀ {b : UInt8}, isSpace b = true → breaks b = true :=
  @(all (by decide))

theorem closes_of_isSpace {b : UInt8} (h : isSpace b = true) : closes b = true := by
  rw [closes, h]
  rfl

theorem isNumberPart_of_isDigit : ∀ {b : UInt8}, isDigit b = true → isNumberPart b = true :=
  @(all (by decide))

end Byte

/-- The bytes are code: there is no quote and no comment among them. -/
def IsCode (t : Text) : Prop := ∀ b ∈ t, Byte.isQuote b = false ∧ b ≠ Byte.hash

theorem IsCode.noQuote {t : Text} (h : IsCode t) : NoQuote t := fun b hb => (h b hb).1

theorem IsCode.append {t u : Text} (ht : IsCode t) (hu : IsCode u) : IsCode (t ++ u) := by
  intro b hb
  exact (List.mem_append.1 hb).elim (ht b) (hu b)

theorem IsCode.of_sublist {t u : Text} (h : IsCode u) (hsub : List.Sublist t u) : IsCode t :=
  fun b hb => h b (hsub.subset hb)

theorem NoQuote.of_sublist {t u : Text} (h : NoQuote u) (hsub : List.Sublist t u) : NoQuote t :=
  fun b hb => h b (hsub.subset hb)

/-- No token can run over the seam between the two texts. -/
def Apart (t u : Text) : Prop :=
  (∀ b ∈ t.getLast?, Byte.closes b = true) ∨ ∀ b ∈ u.head?, Byte.breaks b = true

theorem apart_of_head {t : Text} {b : UInt8} {u : Text} (h : Byte.breaks b = true) :
    Apart t (b :: u) := .inr (by rintro _ ⟨⟩; exact h)

theorem Apart.prepend {t u : Text} (h : Apart t u) (hne : t ≠ []) (s : Text) :
    Apart (s ++ t) u := by
  refine h.imp_left fun hlast b hb => hlast b ?_
  rwa [List.getLast?_append, List.getLast?_eq_some_getLast hne, Option.some_or,
    ← List.getLast?_eq_some_getLast hne] at hb

theorem Apart.of_suffix {s t u : Text} (h : Apart (s ++ t) u) : Apart t u := by
  refine h.imp_left fun hlast b hb => hlast b ?_
  rw [List.getLast?_append, Option.mem_def.1 hb]
  rfl

namespace Token

/-! ## One token -/

theorem literal?_of_noQuote {t : Text} (h : NoQuote t) : literal? t = none := by
  unfold literal?
  simp only
  split
  · rfl
  · rename_i q after hdrop
    have hq : q ∈ t := by
      have hmem : q ∈ t.drop ((t.take 2).takeWhile Byte.isLiteralLetter).length := by
        rw [hdrop]
        exact List.mem_cons_self
      exact List.mem_of_mem_drop hmem
    rw [h q hq]
    rfl

theorem lexeme_of_noQuote {b : UInt8} {rest : Text} (hb : b ≠ Byte.hash)
    (h : NoQuote (b :: rest)) :
    lexeme b rest =
      if Byte.isIdentStart b then (.ident, (rest.takeWhile Byte.isIdentPart).length)
      else if Byte.isDigit b then (.number, (rest.takeWhile Byte.isNumberPart).length)
      else (.punct, punctSize (b :: rest) - 1) := by
  rw [lexeme, if_neg hb, literal?_of_noQuote h]

/-- A run that lies within the first of two texts is the run of that text. -/
theorem length_takeWhile_left {p : UInt8 → Bool} {u v : Text}
    (h : ((u ++ v).takeWhile p).length ≤ u.length) :
    (u.takeWhile p).length = ((u ++ v).takeWhile p).length := by
  rw [List.takeWhile_append] at h ⊢
  split
  · rename_i hall
    rw [if_pos hall, List.length_append] at h
    rw [List.length_append]
    omega
  · rfl

/-- What is found first still is when less is to be found. -/
theorem find?_of_imp {α : Type} {p q : α → Bool} {xs : List α} (himp : ∀ x ∈ xs, q x → p x)
    (hfound : ∀ x ∈ xs.find? p, q x) : xs.find? q = xs.find? p := by
  induction xs with
  | nil => rfl
  | cons x xs ih =>
    by_cases hp : p x = true
    · rw [List.find?_cons_of_pos hp] at hfound ⊢
      rw [List.find?_cons_of_pos (hfound x rfl)]
    · have hq : ¬ q x = true := fun hq => hp (himp x List.mem_cons_self hq)
      rw [List.find?_cons_of_neg hp] at hfound ⊢
      rw [List.find?_cons_of_neg hq]
      exact ih (fun y hy => himp y (List.mem_cons_of_mem _ hy)) hfound

theorem punctSize_left {u v : Text} (h : punctSize (u ++ v) ≤ u.length) :
    punctSize u = punctSize (u ++ v) := by
  unfold punctSize at h ⊢
  have hfind : operators.find? (·.isPrefixOf u) = operators.find? (·.isPrefixOf (u ++ v)) := by
    apply find?_of_imp
    · intro op _ hop
      exact List.isPrefixOf_iff_prefix.2
        ((List.isPrefixOf_iff_prefix.1 hop).trans (List.prefix_append u v))
    · intro op hop
      rw [Option.mem_def.1 hop] at h
      have hprefix := List.find?_some hop
      rw [List.isPrefixOf_iff_prefix] at hprefix ⊢
      exact List.prefix_of_prefix_length_le hprefix (List.prefix_append u v) h
  rw [hfind]

/-- A token that lies within the first of two texts is the token of that text. -/
theorem lexeme_left {b : UInt8} {u v : Text} (hb : b ≠ Byte.hash) (h : NoQuote (b :: (u ++ v)))
    (hmore : (lexeme b (u ++ v)).2 ≤ u.length) : lexeme b u = lexeme b (u ++ v) := by
  have hu : NoQuote (b :: u) := h.of_sublist ((List.sublist_append_left u v).cons_cons b)
  rw [lexeme_of_noQuote hb h] at hmore ⊢
  rw [lexeme_of_noQuote hb hu]
  split
  · rename_i hstart
    rw [if_pos hstart] at hmore
    rw [length_takeWhile_left hmore]
  · rename_i hstart
    rw [if_neg hstart] at hmore
    split
    · rename_i hdigit
      rw [if_pos hdigit] at hmore
      rw [length_takeWhile_left hmore]
    · rename_i hdigit
      rw [if_neg hdigit] at hmore
      have hsize : punctSize (b :: u ++ v) ≤ (b :: u).length := by
        rw [List.length_cons]
        exact Nat.le_add_of_sub_le hmore
      rw [punctSize_left hsize]
      rfl

theorem length_takeWhile_of_apart {p : UInt8 → Bool} (hp : ∀ c, p c → Byte.isNumberPart c)
    {b : UInt8} {u v : Text} (hb : p b = true) (h : Apart (b :: u) v) :
    ((u ++ v).takeWhile p).length ≤ u.length := by
  rw [List.takeWhile_append]
  split
  · rename_i hall
    -- the run takes all of the first text, so the seam has to stop it
    have hrun : u.takeWhile p = u := (List.takeWhile_prefix p).eq_of_length hall
    have hlast : ∀ c ∈ (b :: u).getLast?, p c = true := by
      intro c hc
      rcases List.mem_cons.1 (List.mem_of_getLast? hc) with rfl | hmem
      · exact hb
      · rw [← hrun] at hmem
        exact List.all_eq_true.1 List.all_takeWhile c hmem
    have hstop : v.takeWhile p = [] := by
      cases v with
      | nil => rfl
      | cons c v =>
        apply List.takeWhile_cons_of_neg
        intro hc
        have hpart := hp c hc
        rcases h with h | h
        · obtain ⟨d, hd⟩ : ∃ d, (b :: u).getLast? = some d :=
            ⟨_, List.getLast?_eq_some_getLast (List.cons_ne_nil b u)⟩
          have := Byte.isNumberPart_of_closes (h d hd)
          rw [hp d (hlast d hd)] at this
          cases this
        · have := Byte.isNumberPart_of_breaks (h c rfl)
          rw [hpart] at this
          cases this
    exact Nat.le_of_eq (by rw [hstop, List.append_nil])
  · exact (List.takeWhile_prefix p).length_le

/-- An operator does not run over a seam when none holds the bytes on both of its sides. -/
theorem punctSize_append_le {b : UInt8} {u v : Text}
    (h : ∀ op ∈ operators, (∀ c ∈ (b :: u).getLast?, c ∉ op) ∨ ∀ c ∈ v.head?, c ∉ op.tail) :
    punctSize (b :: u ++ v) ≤ (b :: u).length := by
  unfold punctSize
  split
  · rename_i op hfind
    have hop := List.mem_of_find?_eq_some hfind
    have hprefix := List.find?_some hfind
    rw [List.isPrefixOf_iff_prefix] at hprefix
    apply Nat.le_of_not_lt
    intro hlong
    obtain ⟨w, rfl⟩ := List.prefix_of_prefix_length_le (List.prefix_append (b :: u) v) hprefix
      (Nat.le_of_lt hlong)
    rcases h _ hop with h | h
    · have hlast := List.getLast?_eq_some_getLast (List.cons_ne_nil b u)
      exact h _ hlast (List.mem_append_left w (List.mem_of_getLast? hlast))
    · cases w with
      | nil => simp at hlong
      | cons c w =>
        have hc : c ∈ v.head? := by
          obtain ⟨z, hz⟩ := (List.prefix_append_right_inj _).1 hprefix
          rw [← hz]
          rfl
        exact h c hc (by simp)
  · exact Nat.succ_le_succ (Nat.zero_le _)

theorem punctSize_of_apart {b : UInt8} {u v : Text} (h : Apart (b :: u) v) :
    punctSize (b :: u ++ v) ≤ (b :: u).length := by
  have hclosed : ∀ op ∈ operators, ∀ c ∈ op, Byte.closes c = false := by decide +kernel
  have hbroken : ∀ op ∈ operators, ∀ c ∈ op.tail, Byte.breaks c = false := by decide +kernel
  apply punctSize_append_le
  intro op hop
  refine h.imp ?_ ?_
  · intro hlast c hc hmem
    have hopen := hclosed op hop c hmem
    rw [hlast c hc] at hopen
    cases hopen
  · intro hhead c hc hmem
    have hwhole := hbroken op hop c hmem
    rw [hhead c hc] at hwhole
    cases hwhole

/-- A token does not run over a seam. -/
theorem lexeme_of_apart {b : UInt8} {u v : Text} (hb : b ≠ Byte.hash) (h : NoQuote (b :: (u ++ v)))
    (hapart : Apart (b :: u) v) : (lexeme b (u ++ v)).2 ≤ u.length := by
  rw [lexeme_of_noQuote hb h]
  split
  · rename_i hstart
    exact length_takeWhile_of_apart (fun c => Byte.isNumberPart_of_isIdentPart)
      (Byte.isIdentPart_of_isIdentStart hstart) hapart
  · split
    · rename_i hdigit
      exact length_takeWhile_of_apart (fun c hc => hc) (Byte.isNumberPart_of_isDigit hdigit) hapart
    · exact Nat.sub_le_of_le_add (punctSize_of_apart hapart)

theorem lexeme_le {b : UInt8} {rest : Text} (h : IsCode (b :: rest)) :
    (lexeme b rest).2 ≤ rest.length := by
  have hquote := h.noQuote
  rw [← List.append_nil rest] at hquote
  have hle := lexeme_of_apart (h b List.mem_cons_self).2 hquote (.inr fun c hc => by cases hc)
  rwa [List.append_nil] at hle

/-! ## Scans in pieces -/

/-- **Code is lexed in pieces.** -/
theorem scan_append (pos : Nat) {t u : Text} (ht : IsCode t) (hu : NoQuote u) (h : Apart t u) :
    scan pos (t ++ u) = scan pos t ++ scan (pos + t.length) u := by
  fun_induction scan pos t with
  | case1 => rfl
  | case2 pos b rest hgap ih =>
    rw [List.cons_append, scan_gap pos _ hgap,
      ih (ht.of_sublist (List.sublist_cons_self b rest)) (h.of_suffix (s := [b])),
      List.length_cons, Nat.add_assoc, Nat.add_comm 1]
  | case3 pos b rest hgap kind more hlex ih =>
    have hb := (ht b List.mem_cons_self).2
    have hquote : NoQuote (b :: (rest ++ u)) := by
      intro c hc
      rcases List.mem_append.1 (show c ∈ (b :: rest) ++ u from hc) with hc | hc
      · exact ht.noQuote c hc
      · exact hu c hc
    have hwithin := lexeme_of_apart hb hquote h
    have hsame := lexeme_left hb hquote hwithin
    rw [← hsame, hlex] at hwithin
    have hmore : more ≤ rest.length := hwithin
    have hdrop : (rest ++ u).drop more = rest.drop more ++ u := List.drop_append_of_le_length hmore
    have htake : (rest ++ u).take more = rest.take more := List.take_append_of_le_length hmore
    have hcode : IsCode (rest.drop more) :=
      ht.of_sublist ((List.drop_sublist more rest).trans (List.sublist_cons_self b rest))
    have hrest := ih hcode (Apart.of_suffix (s := b :: rest.take more)
      (by rwa [List.cons_append, List.take_append_drop]))
    have hpos : pos + more + 1 + (rest.drop more).length = pos + (b :: rest).length := by
      rw [List.length_drop, List.length_cons]
      omega
    rw [List.cons_append, scan_lexeme pos _ hgap, ← hsame, hlex]
    simp only [hdrop, htake, hrest, hpos, List.cons_append]

/-- The bytes `p` end in the last of the tokens `ts`, which stands at its column. -/
def EndsAt (pos : Nat) (p : Text) (ts : List Token) : Prop :=
  (ts = [] ∧ p = []) ∨ ∃ init t p', ts = init ++ [t] ∧ p = p' ++ t.text ∧
    t.column = (pos + p'.length).toUInt32

theorem EndsAt.cons {pos : Nat} {p : Text} {ts : List Token} (first : Token)
    (hcolumn : first.column = pos.toUInt32) (h : EndsAt (pos + first.text.length) p ts) :
    EndsAt pos (first.text ++ p) (first :: ts) := by
  rcases h with ⟨rfl, rfl⟩ | ⟨init, t, p', rfl, rfl, ht⟩
  · exact .inr ⟨[], first, [], rfl, List.append_nil _, hcolumn⟩
  · refine .inr ⟨first :: init, t, first.text ++ p', rfl, (List.append_assoc _ _ _).symm, ?_⟩
    rw [ht, List.length_append, Nat.add_assoc]

theorem EndsAt.gap {pos : Nat} {p : Text} {ts : List Token} (b : UInt8) (hts : ts ≠ [])
    (h : EndsAt (pos + 1) p ts) : EndsAt pos (b :: p) ts := by
  rcases h with ⟨hnil, -⟩ | ⟨init, t, p', rfl, rfl, ht⟩
  · exact absurd hnil hts
  · refine .inr ⟨init, t, b :: p', rfl, rfl, ?_⟩
    rw [ht, List.length_cons, Nat.add_assoc, Nat.add_comm 1]

/-- **A scan can be cut behind each of its tokens.** -/
theorem exists_cut_of_scan {pos : Nat} {line : Text} {ts us : List Token} (hcode : IsCode line)
    (h : scan pos line = ts ++ us) :
    ∃ p q, line = p ++ q ∧ scan pos p = ts ∧ scan (pos + p.length) q = us ∧ EndsAt pos p ts := by
  cases ts with
  | nil => exact ⟨[], line, rfl, scan_nil pos, h, .inl ⟨rfl, rfl⟩⟩
  | cons t ts =>
    fun_induction scan pos line generalizing t ts with
    | case1 => cases h
    | case2 pos b rest hgap ih =>
      obtain ⟨p, q, hline, hp, hq, hends⟩ :=
        ih (hcode.of_sublist (List.sublist_cons_self b rest)) t ts h
      refine ⟨b :: p, q, by rw [hline]; rfl, by rw [scan_gap pos p hgap, hp], ?_,
        hends.gap b (List.cons_ne_nil t ts)⟩
      rwa [List.length_cons, Nat.add_comm p.length, ← Nat.add_assoc]
    | case3 pos b rest hgap kind more hlex ih =>
      obtain ⟨rfl, hrest⟩ := List.cons.inj h
      have hb := (hcode b List.mem_cons_self).2
      have hmore : more ≤ rest.length := by
        have hle := lexeme_le hcode
        rwa [hlex] at hle
      have hlength : (rest.take more).length = more := List.length_take_of_le hmore
      have hdropped : IsCode (rest.drop more) :=
        hcode.of_sublist ((List.drop_sublist more rest).trans (List.sublist_cons_self b rest))
      obtain ⟨p, q, hline, hp, hq, hends⟩ : ∃ p q, rest.drop more = p ++ q ∧
          scan (pos + more + 1) p = ts ∧ scan (pos + more + 1 + p.length) q = us ∧
          EndsAt (pos + more + 1) p ts := by
        cases ts with
        | nil => exact ⟨[], _, rfl, scan_nil _, hrest, .inl ⟨rfl, rfl⟩⟩
        | cons t ts => exact ih hdropped t ts hrest
      have hbytes : rest = rest.take more ++ p ++ q := by
        rw [List.append_assoc, ← hline, List.take_append_drop]
      have hsame : lexeme b (rest.take more ++ p) = (kind, more) := by
        rw [← hlex]
        conv => rhs; rw [hbytes]
        apply lexeme_left hb
        · rw [← hbytes]
          exact hcode.noQuote
        · rw [← hbytes, hlex, List.length_append, hlength]
          exact Nat.le_add_right _ _
      have hpos : pos + (b :: rest.take more).length = pos + more + 1 := by
        rw [List.length_cons, hlength]
        rfl
      refine ⟨b :: rest.take more ++ p, q, ?_, ?_, ?_, ?_⟩
      · rw [List.cons_append, List.cons_append, ← hbytes]
      · rw [List.cons_append, scan_lexeme pos _ hgap, hsame]
        simp only [List.take_left' hlength, List.drop_left' hlength, hp]
      · rw [List.length_append, ← Nat.add_assoc, hpos, hq]
      · exact EndsAt.cons ⟨kind, b :: rest.take more, pos.toUInt32⟩ rfl (by rw [hpos]; exact hends)

/-! ## Code and comments -/

/-- The line up to its comment, when it holds no quote. -/
def uncomment (line : Text) : Text := line.takeWhile (· != Byte.hash)

theorem uncomment_append {t : Text} (h : IsCode t) (u : Text) :
    uncomment (t ++ u) = t ++ uncomment u :=
  List.takeWhile_append_of_pos fun b hb => bne_iff_ne.2 (h b hb).2

theorem isCode_uncomment {line : Text} (h : NoQuote line) : IsCode (uncomment line) := by
  intro b hb
  refine ⟨h b ((List.takeWhile_sublist _).subset hb), ?_⟩
  have := List.all_eq_true.1 List.all_takeWhile b hb
  rwa [bne_iff_ne] at this

theorem eq_uncomment_append (line : Text) :
    line = uncomment line ∨ ∃ c, line = uncomment line ++ Byte.hash :: c := by
  have happend := List.takeWhile_append_dropWhile (p := (· != Byte.hash)) (l := line)
  cases hdrop : line.dropWhile (· != Byte.hash) with
  | nil =>
    rw [hdrop, List.append_nil] at happend
    exact .inl happend.symm
  | cons b c =>
    have hb : b = Byte.hash := by
      have := List.head?_dropWhile_not (· != Byte.hash) line
      simpa [hdrop] using this
    rw [hdrop, hb] at happend
    exact .inr ⟨c, happend.symm⟩

/-- Code is made of identifiers, numbers and signs. -/
theorem kind_of_mem_scan {pos : Nat} {line : Text} (h : IsCode line) {t : Token}
    (ht : t ∈ scan pos line) : t.kind = .ident ∨ t.kind = .number ∨ t.kind = .punct := by
  obtain ⟨b, rest, hsuffix, -, hkind, -⟩ := exists_lexeme_of_mem_scan ht
  have hcode := h.of_sublist hsuffix.sublist
  rw [hkind, lexeme_of_noQuote (hcode b List.mem_cons_self).2 hcode.noQuote]
  split
  · exact .inl rfl
  · split
    · exact .inr (.inl rfl)
    · exact .inr (.inr rfl)

theorem scan_hash (pos : Nat) (c : Text) :
    scan pos (Byte.hash :: c) = [⟨.comment, Byte.hash :: c, pos.toUInt32⟩] := by
  have hlex : lexeme Byte.hash c = (.comment, c.length) := if_pos rfl
  rw [scan_lexeme pos c (by decide), hlex]
  simp

/-- The tokens of a line are those of its code, and the comment behind it. -/
theorem ofLine_of_noQuote {line : Text} (h : NoQuote line) :
    (line = uncomment line ∧ ofLine line = ofLine (uncomment line)) ∨
      ∃ c, line = uncomment line ++ Byte.hash :: c ∧
        ofLine line = ofLine (uncomment line) ++
          [⟨.comment, Byte.hash :: c, (uncomment line).length.toUInt32⟩] := by
  rcases eq_uncomment_append line with heq | ⟨c, heq⟩
  · exact .inl ⟨heq, congrArg ofLine heq⟩
  · refine .inr ⟨c, heq, ?_⟩
    have hcomment : NoQuote (Byte.hash :: c) :=
      h.of_sublist (heq ▸ List.sublist_append_right (uncomment line) (Byte.hash :: c))
    have hscan := scan_append 0 (isCode_uncomment h) hcomment (apart_of_head (by decide))
    rw [← heq, scan_hash, Nat.zero_add] at hscan
    exact hscan

/-- The tokens of a line without its comment. -/
def codeTokens (line : Text) : List Token := dropComment (ofLine line)

theorem codeTokens_of_noQuote {line : Text} (h : NoQuote line) :
    codeTokens line = ofLine (uncomment line) := by
  unfold codeTokens
  rcases ofLine_of_noQuote h with ⟨-, htokens⟩ | ⟨c, -, htokens⟩
  · rw [htokens]
    unfold dropComment
    split
    · rename_i t hlast
      have hkind := kind_of_mem_scan (isCode_uncomment h) (List.mem_of_getLast? hlast)
      rw [if_neg]
      intro hcomment
      rw [hcomment] at hkind
      simp at hkind
    · rfl
  · rw [htokens, dropComment, List.getLast?_concat]
    simp

/-! ## The code view -/

theorem code_of_mem_scan {pos : Nat} {line : Text} (h : IsCode line) {t : Token}
    (ht : t ∈ scan pos line) : t.kind ≠ .comment ∧ t.code = t.text := by
  unfold code
  rcases kind_of_mem_scan h ht with hkind | hkind | hkind <;> rw [hkind] <;> exact ⟨nofun, rfl⟩

/-- Tokens that are neither strings nor comments are shown as they stand in their line. -/
theorem codeFrom_laid (behind : Text) (us : List Token) {pos : Nat} {line : Text} {ts : List Token}
    (h : Laid pos line ts) (hts : ∀ t ∈ ts, t.kind ≠ .comment ∧ t.code = t.text)
    (hsize : pos + line.length < UInt32.size)
    (hend : ∀ p gap, pos + line.length = p + gap.length →
      codeFrom p (gap ++ behind) us = gap) :
    codeFrom pos (line ++ behind) (ts ++ us) = line := by
  induction h with
  | nil => exact hend _ _ rfl
  | @cons pos line gap rest t ts bytes between column nonempty later ih =>
    obtain ⟨hcomment, hcode⟩ := hts t List.mem_cons_self
    have hlength : line.length = gap.length + t.text.length + rest.length := by
      rw [bytes, List.length_append, List.length_append]
    have hcolumn : t.column.toNat = pos + gap.length := by
      rw [column, Number.toNat_word (by omega)]
    have hrest := ih (fun u hu => hts u (List.mem_cons_of_mem _ hu)) (by omega) fun p gap' hp =>
      hend p gap' (by omega)
    rw [bytes, List.append_assoc, List.cons_append, codeFrom_shown hcolumn hcomment hcode, hrest]

/-- **The code view of a line without quotes.** -/
theorem codeOf_of_noQuote {line : Text} (h : NoQuote line) (hsize : line.length < UInt32.size) :
    codeOf line = Text.trimRight (uncomment line) := by
  have hcode : ∀ t ∈ ofLine (uncomment line), t.kind ≠ .comment ∧ t.code = t.text :=
    fun t ht => code_of_mem_scan (isCode_uncomment h) ht
  have hlaid := laid_ofLine (uncomment line)
  unfold codeOf codeView
  rcases ofLine_of_noQuote h with ⟨heq, htokens⟩ | ⟨c, heq, htokens⟩
  · have hview := codeFrom_laid [] [] hlaid hcode
      (by rw [← heq, Nat.zero_add]; exact hsize) fun p gap _ => by rw [List.append_nil]; rfl
    rw [List.append_nil, List.append_nil, ← heq] at hview
    rw [← heq, hview]
  · have hlength := congrArg List.length heq
    rw [List.length_append, List.length_cons] at hlength
    have hview := codeFrom_laid (Byte.hash :: c)
      [⟨.comment, Byte.hash :: c, (uncomment line).length.toUInt32⟩] hlaid hcode
      (by omega) fun p gap hp => by
        rw [codeFrom]
        simp only [if_true]
        rw [Number.toNat_word (by omega)]
        have hgap : (uncomment line).length - p = gap.length := by omega
        rw [hgap, List.take_left]
    rw [← heq, ← htokens] at hview
    rw [hview]

end Token

end MojoLint
