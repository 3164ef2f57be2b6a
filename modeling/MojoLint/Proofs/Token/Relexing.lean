import Mathlib.Data.List.Chain
import Mathlib.Data.List.DropRight
import MojoLint.Proofs.Token.Bare
import MojoLint.Proofs.Token.CodeView

/-!
# Lexing a code view

A header text is made of code views and lexed once more. What is found there are the tokens of the
line, without its comment, the contents of its literals and the white space that trimming takes off
its end, as long as no literal joins the next one (`Joins`, `codeOf_relexed_iff`): the quotes that
are left of `"a""b"` open a literal of three quotes.

The proof goes through a line once, token by token, with its code view beside it (`Viewed`). That
the view starts as the line does (`Viewed.resembles`) is what lets each token be lexed again.
-/

namespace MojoLint.Token

/-! ## What is compared -/

/-- The kind of a token and its bytes, wherever it stands. -/
def lexical (t : Token) : Kind × Text := (t.kind, t.text)

/-- The kind of a token and what the code view shows of it: a literal without its contents. -/
def bare (t : Token) : Kind × Text := (t.kind, t.code)

/-- The tokens without those at their end that are white space. -/
def dropCut (ts : List Token) : List Token := ts.rdropWhile isCut

/-- The literal `s` is closed by a single quote, and `t` starts with the same one right behind. -/
def Joins (s t : Token) : Prop :=
  s.kind = .string .complete ∧ t.column.toNat = s.stop ∧ s.parts.closing = t.text.take 1

instance (s t : Token) : Decidable (Joins s t) :=
  inferInstanceAs (Decidable (_ ∧ _ ∧ _))

theorem dropComment_cons {t : Token} (h : t.kind ≠ .comment) (ts : List Token) :
    dropComment (t :: ts) = t :: dropComment ts := by
  cases ts with
  | nil => simp [dropComment, h]
  | cons u us =>
    rw [dropComment, dropComment, List.getLast?_cons_cons]
    cases hlast : (u :: us).getLast? with
    | none => rfl
    | some v =>
      simp only
      split
      · rw [List.dropLast_cons_cons]
      · rfl

theorem dropCut_cons (t : Token) (ts : List Token) :
    dropCut (t :: ts) = if dropCut ts = [] ∧ isCut t = true then [] else t :: dropCut ts := by
  unfold dropCut List.rdropWhile
  rw [List.reverse_cons, List.dropWhile_append]
  cases h : ts.reverse.dropWhile isCut with
  | nil => cases hcut : isCut t <;> simp [hcut]
  | cons u us => simp

/-! ## Views -/

/-- The bytes `line` from the column `pos` on have the tokens `ts` and the code view `view`, white
space at its end included. -/
inductive Viewed : Nat → Text → List Token → Text → Prop
  | nil (pos : Nat) : Viewed pos [] [] []
  | gap {pos : Nat} {b : UInt8} {line view : Text} {ts : List Token} (isGap : Byte.isGap b = true)
      (later : Viewed (pos + 1) line ts view) : Viewed pos (b :: line) ts (b :: view)
  | comment (pos : Nat) (c : Text) :
      Viewed pos (Byte.hash :: c) [⟨.comment, Byte.hash :: c, pos.toUInt32⟩] []
  | token {pos : Nat} {kind : Kind} {text rest view : Text} {ts : List Token}
      (form : IsLexeme rest kind text) (later : Viewed (pos + text.length) rest ts view) :
      Viewed pos (text ++ rest) (⟨kind, text, pos.toUInt32⟩ :: ts)
        (code ⟨kind, text, pos.toUInt32⟩ ++ view)

theorem codeFrom_cons_gap {pos : Nat} {b : UInt8} {rest : Text} {ts : List Token}
    (h : Laid (pos + 1) rest ts) (hsize : pos + 1 + rest.length < UInt32.size) :
    codeFrom pos (b :: rest) ts = b :: codeFrom (pos + 1) rest ts := by
  cases h with
  | nil gap => rfl
  | @cons _ _ gap behind t ts bytes between column nonempty later =>
    obtain ⟨hcolumn, -, -⟩ := Laid.column_of_cons bytes column hsize
    have hpos : pos + 1 + gap.length = pos + (b :: gap).length := by
      rw [List.length_cons]
      omega
    have hview := @codeFrom_cons (pos + 1) gap behind t ts hcolumn
    have hview' := @codeFrom_cons pos (b :: gap) behind t ts (hcolumn.trans hpos)
    rw [bytes, hview, ← List.cons_append, ← List.cons_append, hview', hpos]
    split <;> rfl

theorem codeFrom_cons_token {pos : Nat} (hpos : pos < UInt32.size) (kind : Kind) (text rest : Text)
    (ts : List Token) :
    codeFrom pos (text ++ rest) (⟨kind, text, pos.toUInt32⟩ :: ts) =
      if kind = .comment then []
      else code ⟨kind, text, pos.toUInt32⟩ ++ codeFrom (pos + text.length) rest ts :=
  @codeFrom_cons pos [] rest ⟨kind, text, pos.toUInt32⟩ ts (Number.toNat_word hpos)

/-- **A line is viewed token by token.** -/
theorem viewed_scan (pos : Nat) (line : Text) (hsize : pos + line.length < UInt32.size) :
    Viewed pos line (scan pos line) (codeFrom pos line (scan pos line)) := by
  induction hn : line.length using Nat.strongRecOn generalizing pos line with
  | ind n ih =>
    cases line with
    | nil =>
      rw [scan_nil]
      exact .nil pos
    | cons b rest =>
      rw [List.length_cons] at hsize hn
      have hpos : pos < UInt32.size := by omega
      by_cases hgap : Byte.isGap b = true
      · have hsize' : pos + 1 + rest.length < UInt32.size := by omega
        rw [scan_gap pos rest hgap, codeFrom_cons_gap (laid_scan (pos + 1) rest) hsize']
        exact .gap hgap (ih rest.length (by omega) (pos + 1) rest hsize' rfl)
      · by_cases hhash : b = Byte.hash
        · have hview := codeFrom_cons_token hpos .comment (b :: rest) [] []
          rw [List.append_nil, if_pos rfl] at hview
          rw [hhash] at hview ⊢
          rw [scan_hash, hview]
          exact .comment pos rest
        · obtain ⟨kind, text, behind, hbytes, hform⟩ :=
            exists_isLexeme rest (by simpa using hgap) hhash
          have hlength := congrArg List.length hbytes
          rw [List.length_cons, List.length_append] at hlength
          have hne := List.length_pos_of_ne_nil hform.text_ne_nil
          rw [hbytes, hform.scan_eq, codeFrom_cons_token hpos, if_neg hform.kind_ne]
          exact .token hform (ih behind.length (by omega) _ behind (by omega) rfl)

variable {pos : Nat} {line view : Text} {ts : List Token}

theorem Viewed.scan_eq (h : Viewed pos line ts view) : scan pos line = ts := by
  induction h with
  | nil pos => exact scan_nil pos
  | gap isGap later ih => rw [scan_gap _ _ isGap, ih]
  | comment pos c => exact scan_hash pos c
  | token form later ih => rw [form.scan_eq, ih]

/-- Nothing is left of a view exactly when no token is left of the line. -/
theorem Viewed.trimRight_eq_nil_iff (h : Viewed pos line ts view) :
    Text.trimRight view = [] ↔ dropCut (dropComment ts) = [] := by
  induction h with
  | nil pos => exact iff_of_true rfl rfl
  | @gap pos b line view ts isGap later ih =>
    rw [Text.trimRight_cons_space (Byte.isSpace_of_isGap isGap), ← ih]
    by_cases hview : Text.trimRight view = []
    · rw [if_pos hview]
      exact iff_of_true rfl hview
    · rw [if_neg hview]
      exact iff_of_false (List.cons_ne_nil _ _) hview
  | comment pos c => exact iff_of_true rfl rfl
  | @token pos kind text rest view ts form later ih =>
    rw [form.trimRight_append, dropComment_cons form.kind_ne, dropCut_cons]
    simp only [ih]
    split
    · exact iff_of_true rfl rfl
    · refine iff_of_false (fun hnil => ?_) (List.cons_ne_nil _ _)
      exact form.code_ne_nil _ (List.append_eq_nil_iff.1 hnil).1

/-- A view starts as its line does. -/
theorem Viewed.resembles (h : Viewed pos line ts view) : Resembles line (Text.trimRight view) := by
  induction h with
  | nil pos => exact ⟨nofun, nofun, rfl⟩
  | @gap pos b line view ts isGap later ih =>
    have hspace := Byte.isSpace_of_isGap isGap
    rw [Text.trimRight_cons_space hspace]
    split
    · exact .gone (.inl hspace) line
    · refine .cons fun hpart => ?_
      rw [not_isSpace_of_isOperatorPart hpart] at hspace
      cases hspace
  | comment pos c => exact .gone (.inr rfl) c
  | @token pos kind text rest view ts form later ih =>
    have hhead := form.head?_code pos.toUInt32
    have hoperator := form.operator pos.toUInt32
    obtain ⟨b, w, rfl, -⟩ := form.lexeme_eq
    rw [form.trimRight_append]
    split
    · rename_i hcut
      obtain ⟨c, htext, hspace⟩ := isCut_spec hcut.2
      cases htext
      exact .gone (.inl hspace) rest
    · obtain ⟨v, hcode⟩ := List.head?_eq_some_iff.1 hhead
      rw [hcode]
      refine .cons fun hpart => ?_
      -- an operator is shown as it stands
      obtain ⟨hsame, hall⟩ := hoperator (by rintro _ ⟨⟩; exact hpart)
      obtain rfl : v = w := (List.cons.inj (hcode.symm.trans hsame)).2
      have hrun := (List.forall_mem_cons.1 hall).2
      change (v ++ Text.trimRight view).takeWhile isOperatorPart =
        (v ++ rest).takeWhile isOperatorPart
      rw [List.takeWhile_append_of_pos hrun, List.takeWhile_append_of_pos hrun, ih.run]

/-! ## Literals that join -/

/-- The byte behind a token is seen in the token that stands there. -/
theorem head?_iff_scan {pos : Nat} {rest : Text} (hsize : pos + rest.length < UInt32.size)
    {q : UInt8} (hq : Byte.isGap q = false) :
    q ∈ rest.head? ↔
      ∃ u ∈ (scan pos rest).head?, u.column.toNat = pos ∧ u.text.head? = some q := by
  have hlaid := laid_scan pos rest
  generalize scan pos rest = ts at hlaid
  cases hlaid with
  | nil gap =>
    refine iff_of_false (fun hhead => ?_) (by rintro ⟨_, ⟨⟩, -⟩)
    rw [gap q (List.mem_of_head? hhead)] at hq
    cases hq
  | @cons _ _ gap behind t ts bytes between column nonempty later =>
    obtain ⟨hcolumn, -, -⟩ := Laid.column_of_cons bytes column hsize
    cases gap with
    | nil =>
      have hhead : rest.head? = t.text.head? := by
        rw [bytes, List.nil_append, List.head?_append_of_ne_nil _ nonempty]
      rw [hhead]
      constructor
      · exact fun hq => ⟨t, rfl, hcolumn, hq⟩
      · rintro ⟨u, ⟨⟩, -, hq⟩
        exact hq
    | cons c gap =>
      refine iff_of_false (fun hhead => ?_) ?_
      · rw [bytes] at hhead
        cases hhead
        rw [between q List.mem_cons_self] at hq
        cases hq
      · rintro ⟨u, ⟨⟩, hstart, -⟩
        rw [hcolumn, List.length_cons] at hstart
        omega

/-- Whether a literal joins the next token is seen in the byte behind it. -/
theorem IsLexeme.joins_iff {rest text : Text} {kind : Kind} (h : IsLexeme rest kind text)
    {pos : Nat} (hsize : pos + text.length + rest.length < UInt32.size) :
    (∃ u ∈ (scan (pos + text.length) rest).head?, Joins ⟨kind, text, pos.toUInt32⟩ u) ↔
      kind = .string .complete ∧ (parts ⟨kind, text, pos.toUInt32⟩).closing = rest.take 1 := by
  have hgap : ∀ {c}, Byte.isQuote c = true → Byte.isGap c = false := @(Byte.all (by decide))
  have hstop : stop ⟨kind, text, pos.toUInt32⟩ = pos + text.length := by
    rw [stop, Number.toNat_word (by omega)]
  have htake : ∀ {x : Text} {q}, q ∈ x.head? → x.take 1 = [q] := by
    intro x q hq
    obtain ⟨behind, rfl⟩ := List.head?_eq_some_iff.1 hq
    rfl
  constructor
  · rintro ⟨u, hu, hkind, hcolumn, hclosing⟩
    obtain rfl : kind = .string .complete := hkind
    obtain ⟨letters, q, hopening, -, hquote, hq⟩ := h.exists_opening hclosing
    refine ⟨rfl, hquote.trans (htake ?_).symm⟩
    exact (head?_iff_scan hsize (hgap hopening.isQuote)).2 ⟨u, hu, hcolumn.trans hstop, hq⟩
  · rintro ⟨rfl, hclosing⟩
    obtain ⟨letters, q, hopening, -, hquote, hq⟩ := h.exists_opening hclosing
    obtain ⟨u, hu, hcolumn, hhead⟩ := (head?_iff_scan hsize (hgap hopening.isQuote)).1 hq
    exact ⟨u, hu, rfl, hcolumn.trans hstop.symm, hquote.trans (htake hhead).symm⟩

/-! ## Views that are lexed again -/

/-- **A view is lexed to what is shown of its tokens**, when no literal joins the next one, and
otherwise it is not. -/
theorem Viewed.relexed_iff (h : Viewed pos line ts view) (hsize : pos + line.length < UInt32.size)
    (p : Nat) :
    (scan p (Text.trimRight view)).map lexical = (dropCut (dropComment ts)).map Token.bare ↔
      ts.IsChain fun s t => ¬ Joins s t := by
  induction h generalizing p with
  | nil pos =>
    refine iff_of_true ?_ .nil
    rw [show Text.trimRight [] = [] from rfl, scan_nil]
    rfl
  | @gap pos b line view ts isGap later ih =>
    rw [List.length_cons] at hsize
    rw [Text.trimRight_cons_space (Byte.isSpace_of_isGap isGap)]
    split
    · rename_i hnil
      have hrest := ih (by omega) p
      rwa [hnil] at hrest
    · rw [scan_gap p _ isGap]
      exact ih (by omega) (p + 1)
  | comment pos c =>
    refine iff_of_true ?_ (.singleton _)
    rw [show Text.trimRight [] = [] from rfl, scan_nil]
    rfl
  | @token pos kind text rest view ts form later ih =>
    rw [List.length_append] at hsize
    have hsize' : pos + text.length + rest.length < UInt32.size := by omega
    have hjoins := form.joins_iff hsize'
    rw [later.scan_eq] at hjoins
    have hchain : ((⟨kind, text, pos.toUInt32⟩ : Token) :: ts).IsChain (fun s t => ¬ Joins s t) ↔
        ¬ (kind = .string .complete ∧
          (parts ⟨kind, text, pos.toUInt32⟩).closing = rest.take 1) ∧
          ts.IsChain fun s t => ¬ Joins s t := by
      rw [List.isChain_cons, ← hjoins]
      simp only [not_exists, not_and]
    rw [form.trimRight_append, dropComment_cons form.kind_ne, dropCut_cons, hchain]
    simp only [← later.trimRight_eq_nil_iff]
    split
    · rename_i hcut
      -- white space joins nothing, and nothing is left on either side
      have hrest := ih hsize' p
      rw [hcut.1, later.trimRight_eq_nil_iff.1 hcut.1, scan_nil] at hrest
      rw [scan_nil]
      refine iff_of_true rfl ⟨fun hjoin => ?_, hrest.1 rfl⟩
      rw [isCut, hjoin.1] at hcut
      cases hcut.2
    · by_cases hjoin : kind = .string .complete ∧
          (parts ⟨kind, text, pos.toUInt32⟩).closing = rest.take 1
      · refine iff_of_false (fun heq => ?_) fun h => h.1 hjoin
        obtain ⟨rfl, hclosing⟩ := hjoin
        obtain ⟨t, us, hscan, hne⟩ := form.scan_joined later.resembles hclosing p
        rw [hscan, List.map_cons, List.map_cons] at heq
        exact hne (congrArg Prod.snd (List.cons.inj heq).1)
      · have hbare := form.relexed later.resembles pos.toUInt32 fun hkind hclosing =>
          hjoin ⟨hkind, hclosing⟩
        rw [hbare.scan_eq p, List.map_cons, List.map_cons, List.cons.injEq, ← ih hsize' _]
        exact and_congr (iff_of_true rfl hjoin) Iff.rfl

/-- The tokens in front of a comment are lexemes. -/
theorem Viewed.exists_isLexeme (h : Viewed pos line ts view) :
    ∀ t ∈ dropComment ts, ∃ rest, IsLexeme rest t.kind t.text := by
  induction h with
  | nil pos => exact List.forall_mem_nil _
  | gap isGap later ih => exact ih
  | comment pos c => exact List.forall_mem_nil _
  | token form later ih =>
    rw [dropComment_cons form.kind_ne]
    exact List.forall_mem_cons.2 ⟨⟨_, form⟩, ih⟩

/-- A code view that is lexed to the tokens of its line is its own code view. -/
theorem codeOf_codeOf {line : Text} (hsize : line.length < UInt32.size)
    (h : (ofLine (codeOf line)).map lexical = (dropCut (codeTokens line)).map bare) :
    codeOf (codeOf line) = codeOf line := by
  have hview := viewed_scan 0 line (by rwa [Nat.zero_add])
  have hshown : ∀ u ∈ ofLine (codeOf line), u.kind ≠ .comment ∧ u.code = u.text := by
    intro u hu
    have hmem := List.mem_map_of_mem (f := lexical) hu
    rw [h] at hmem
    obtain ⟨t, ht, hbare⟩ := List.mem_map.1 hmem
    obtain ⟨rest, hform⟩ := hview.exists_isLexeme t ((List.rdropWhile_prefix isCut _).subset ht)
    obtain ⟨kind, text, column⟩ := u
    obtain ⟨rfl, rfl⟩ := Prod.mk.inj hbare
    exact ⟨hform.kind_ne, hform.code_code t.column column⟩
  have hsize' : 0 + (codeOf line).length < UInt32.size := by
    rw [Nat.zero_add]
    exact Nat.lt_of_le_of_lt (codeOf_sublist hsize).length_le hsize
  have hself := codeFrom_laid [] [] (laid_ofLine (codeOf line)) hshown hsize' fun p gap _ => by
    rw [List.append_nil]
    rfl
  rw [List.append_nil, List.append_nil] at hself
  calc codeOf (codeOf line) = Text.trimRight (codeOf line) := congrArg Text.trimRight hself
    _ = codeOf line := Text.trimRight_trimRight _

/-- **The code view of a line is lexed to the tokens of the line**, without its comment, the
contents of its literals and white space at its end, exactly when no literal that a single quote
closes is followed at once by the same quote. Taking the code view once more then changes
nothing. -/
theorem codeOf_relexed_iff {line : Text} (hsize : line.length < UInt32.size) :
    ((ofLine (codeOf line)).map lexical = (dropCut (codeTokens line)).map bare ↔
        (ofLine line).IsChain fun s t => ¬ Joins s t) ∧
      (((ofLine line).IsChain fun s t => ¬ Joins s t) → codeOf (codeOf line) = codeOf line) := by
  have hview := viewed_scan 0 line (by rwa [Nat.zero_add])
  have hiff := hview.relexed_iff (by rwa [Nat.zero_add]) 0
  exact ⟨hiff, fun hchain => codeOf_codeOf hsize (hiff.2 hchain)⟩

/-- Two literals side by side with different quotes, and longer literals. -/
theorem codeOf_relexed_mixed :
    let line : Text := "s = f(r\"a b\", 'c'\"d\" + \"\"\"e\"\"\") # g"
    line.length < UInt32.size ∧
      (ofLine (codeOf line)).map lexical = (dropCut (codeTokens line)).map bare ∧
        codeOf (codeOf line) = codeOf line := by
  repeat rw [Text.ofString_ofList]
  intro line
  have hsize : line.length < UInt32.size := by decide +kernel
  have hchain : (ofLine line).IsChain fun s t => ¬ Joins s t := by decide +kernel
  obtain ⟨hiff, hself⟩ := codeOf_relexed_iff hsize
  exact ⟨hsize, hiff.2 hchain, hself hchain⟩

/-- Two literals side by side with the same quote: the code view opens a literal that takes up the
rest of the header, the trait list included. -/
theorem codeOf_not_relexed :
    let line : Text := "struct S[x: String = \"a\"\"b\"](Copyable):"
    codeOf line = "struct S[x: String = \"\"\"\"](Copyable):" ∧
      (ofLine (codeOf line)).map lexical ≠ (dropCut (codeTokens line)).map bare ∧
        (ofLine (codeOf line)).getLast? =
          some ⟨.string .unterminated, "\"\"\"\"](Copyable):", 21⟩ := by
  repeat rw [Text.ofString_ofList]
  decide +kernel

end MojoLint.Token
