import MojoLint.Proofs.Balance.Scan
import MojoLint.Proofs.Text.Basic

/-!
# The structure scan, byte by byte

For the question whether a text passes the structure check, line numbers and tokens do not matter.
`Outline` is what is left of the state of the scan: the brackets that are open, and whether a
docstring is. `outlineOf` goes through code byte by byte, and only quotes, brackets and the sign of
a comment mean anything to it; it sees what the scan of the tokens sees (`outline_scanTokens`).
-/

namespace MojoLint

/-! ## Literals and their letters -/

namespace Token

theorem not_isLiteralLetter_of_isQuote :
    ∀ {b : UInt8}, Byte.isQuote b = true → Byte.isLiteralLetter b = false :=
  @(Byte.all (by decide))

theorem literal?_quote {q : UInt8} (hq : Byte.isQuote q = true) (after : Text) :
    literal? (q :: after) =
      let quotes := if [q, q].isPrefixOf after then 3 else 1
      let (n, closed) := untilClosed (List.replicate quotes q) (after.drop (quotes - 1))
      some (quotes + n, if closed then .complete else .unterminated) := by
  have hletters : ((q :: after).take 2).takeWhile Byte.isLiteralLetter = [] := by
    rw [List.take_succ_cons, List.takeWhile_cons_of_neg]
    rw [not_isLiteralLetter_of_isQuote hq]
    exact Bool.false_ne_true
  unfold literal?
  simp only [hletters, List.length_nil, List.drop_zero, hq, if_true, Nat.zero_add]

theorem literal?_quote_cases {q : UInt8} (hq : Byte.isQuote q = true) (after : Text) :
    (∃ n, literal? (q :: after) = some (n, .complete)) ∨
      ∃ n, literal? (q :: after) = some (n, .unterminated) := by
  rw [literal?_quote hq]
  simp only
  generalize untilClosed _ _ = pair
  obtain ⟨n, closed⟩ := pair
  cases closed with
  | true => exact .inl ⟨_, rfl⟩
  | false => exact .inr ⟨_, rfl⟩

/-- A literal is one that starts with a quote, behind its letters. -/
theorem exists_quote_of_literal? {t : Text} {size : Nat} {extent : Extent}
    (h : literal? t = some (size, extent)) :
    ∃ letters q after n, t = letters ++ q :: after ∧
      (∀ b ∈ letters, Byte.isLiteralLetter b = true) ∧ Byte.isQuote q = true ∧
      literal? (q :: after) = some (n + 1, extent) ∧ extent ≠ .continued ∧
      size = letters.length + n + 1 := by
  unfold literal? at h
  simp only at h
  generalize hletters : (t.take 2).takeWhile Byte.isLiteralLetter = letters at h
  have hprefix : letters <+: t := by
    rw [← hletters]
    exact (List.takeWhile_prefix _).trans (List.take_prefix _ _)
  have hall : ∀ b ∈ letters, Byte.isLiteralLetter b = true := by
    rw [← hletters]
    exact List.all_eq_true.1 List.all_takeWhile
  obtain ⟨rest, rfl⟩ := hprefix
  rw [List.drop_left] at h
  split at h
  · cases h
  · rename_i q after
    split at h
    · rename_i hq
      have hliteral := literal?_quote hq after
      have hpos : 1 ≤ if [q, q].isPrefixOf after = true then 3 else 1 := by split <;> decide
      simp only [Option.some.injEq, Prod.mk.injEq] at h hliteral
      obtain ⟨hsize, hextent⟩ := h
      rw [hextent] at hliteral
      refine ⟨letters, q, after, size - letters.length - 1, rfl, hall, hq, ?_, ?_, by omega⟩
      · rw [hliteral, ← hsize]
        congr 2
        omega
      · rintro rfl
        rcases literal?_quote_cases hq after with ⟨n, hn⟩ | ⟨n, hn⟩ <;> rw [hn] at hliteral <;>
          cases hliteral
    · cases h

/-- What the token at the start of `b :: rest` can be, `more` being the number of its bytes behind
`b`, as far as it matters to the structure of the text. -/
inductive Lexed (b : UInt8) (rest : Text) : Kind → Nat → Prop
  | comment (hash : b = Byte.hash) : Lexed b rest .comment rest.length
  | literal {letters after : Text} {q : UInt8} {n more : Nat} {extent : Extent}
      (bytes : b :: rest = letters ++ q :: after)
      (isLetter : ∀ c ∈ letters, Byte.isLiteralLetter c = true) (isQuote : Byte.isQuote q = true)
      (literal : literal? (q :: after) = some (n + 1, extent)) (extent_ne : extent ≠ .continued)
      (more_eq : more = letters.length + n) : Lexed b rest (.string extent) more
  | plain {kind : Kind} {more : Nat} (isPlain : ∀ c ∈ b :: rest.take more, Byte.isPlain c = true)
      (isWord : kind = .ident ∨ kind = .number ∨ kind = .punct ∧ 0 < (rest.take more).length) :
      Lexed b rest kind more
  | sign (not_hash : b ≠ Byte.hash) (not_quote : Byte.isQuote b = false) : Lexed b rest .punct 0

theorem isPlain_takeWhile {p : UInt8 → Bool} (hp : ∀ {c}, p c = true → Byte.isPlain c = true)
    {b : UInt8} (hb : Byte.isPlain b = true) (rest : Text) :
    ∀ c ∈ b :: rest.take (rest.takeWhile p).length, Byte.isPlain c = true := by
  rw [← List.prefix_iff_eq_take.1 (List.takeWhile_prefix _)]
  refine List.forall_mem_cons.2 ⟨hb, ?_⟩
  intro c hc
  exact hp (List.all_eq_true.1 List.all_takeWhile c hc)

theorem lexed_lexeme (b : UInt8) (rest : Text) :
    Lexed b rest (lexeme b rest).1 (lexeme b rest).2 := by
  have hstart : ∀ {c}, Byte.isIdentStart c = true → Byte.isPlain c = true :=
    @(Byte.all (by decide))
  have hdigit : ∀ {c}, Byte.isDigit c = true → Byte.isPlain c = true :=
    @(Byte.all (by decide))
  have hnumber : ∀ {c}, Byte.isNumberPart c = true → Byte.isPlain c = true :=
    @(Byte.all (by decide))
  unfold lexeme
  by_cases hhash : b = Byte.hash
  · rw [if_pos hhash]
    exact .comment hhash
  · rw [if_neg hhash]
    cases hl : literal? (b :: rest) with
    | some pair =>
      obtain ⟨size, extent⟩ := pair
      obtain ⟨letters, q, after, n, hbytes, hletters, hq, hliteral, hextent, rfl⟩ :=
        exists_quote_of_literal? hl
      exact .literal hbytes hletters hq hliteral hextent rfl
    | none =>
      simp only
      split
      · rename_i hident
        exact .plain (isPlain_takeWhile Byte.isPlain_of_isIdentPart (hstart hident) rest) (.inl rfl)
      · split
        · rename_i hnum
          exact .plain (isPlain_takeWhile hnumber (hdigit hnum) rest) (.inr (.inl rfl))
        · unfold punctSize
          split
          · rename_i op hop
            have hsigns : ∀ op ∈ operators, 1 < op.length ∧ op.all Byte.isPlain = true := by decide
            obtain ⟨hlength, hall⟩ := hsigns op (List.mem_of_find?_eq_some hop)
            have hbytes := List.all_eq_true.1 hall
            have hprefix : op <+: b :: rest := by simpa using List.find?_some hop
            obtain ⟨c, op, rfl⟩ := List.exists_cons_of_length_pos (Nat.lt_of_succ_lt hlength)
            obtain ⟨tail, htail⟩ := hprefix
            rw [List.cons_append, List.cons.injEq] at htail
            obtain ⟨rfl, rfl⟩ := htail
            simp only [List.length_cons, Nat.add_sub_cancel] at hlength ⊢
            refine .plain ?_ (.inr (.inr ⟨rfl, ?_⟩))
            · rwa [List.take_left]
            · rw [List.take_left]
              omega
          · refine .sign hhash ?_
            cases hq : Byte.isQuote b with
            | false => rfl
            | true =>
              rw [literal?_quote hq] at hl
              cases hl

end Token

namespace Balance

/-! ## Outlines -/

/-- Where a scan stands: the bytes of the brackets that are open, the innermost first, and whether
it is inside a docstring. -/
structure Outline where
  brackets : List UInt8
  inside : Bool
deriving DecidableEq

/-- The brackets open after one more byte. -/
def nest (brackets : List UInt8) (b : UInt8) : Option (List UInt8) :=
  if isOpening b then some (b :: brackets)
  else
    match partner? b with
    | none => some brackets
    | some want =>
      match brackets with
      | top :: rest => if top = want then some rest else none
      | [] => none

/-- Where the scan stands after a piece of code, if it gets through it. -/
def outlineOf (brackets : List UInt8) (code : Text) : Option Outline :=
  match code with
  | [] => some ⟨brackets, false⟩
  | b :: rest =>
    if b = Byte.hash then some ⟨brackets, false⟩
    else if Byte.isQuote b then
      match Token.literal? (b :: rest) with
      | some (size, .complete) => outlineOf brackets (rest.drop (size - 1))
      | _ => if Delimiter.triple.isPrefixOf (b :: rest) then some ⟨brackets, true⟩ else none
    else (nest brackets b).bind fun next => outlineOf next rest
termination_by code.length
decreasing_by
  · simp only [List.length_cons, List.length_drop]
    omega
  · simp

/-- The outline of what a scan of tokens leads to. -/
def view : Except Fault (Stack × Bool) → Option Outline
  | .ok (stack, opened) => some ⟨stack.map Prod.fst, opened⟩
  | .error _ => none

theorem nest_eq_bracketStep (line : Nat) (stack : Stack) (b : UInt8) :
    nest (stack.map Prod.fst) b = (bracketStep line stack b).toOption.map (·.map Prod.fst) := by
  unfold nest bracketStep
  by_cases hopening : isOpening b = true
  · rw [if_pos hopening, if_pos hopening]
    rfl
  · rw [if_neg hopening, if_neg hopening]
    cases partner? b with
    | none => rfl
    | some want =>
      cases stack with
      | nil => rfl
      | cons top rest => by_cases htop : top.1 = want <;> simp [htop, Except.toOption]

theorem nest_plain {b : UInt8} (h : Byte.isPlain b = true) (brackets : List UInt8) :
    nest brackets b = some brackets := by
  have hplain : ∀ {b}, Byte.isPlain b = true → isOpening b = false ∧ partner? b = none :=
    @(Byte.all (by decide))
  obtain ⟨hopening, hpartner⟩ := hplain h
  simp [nest, hopening, hpartner]

theorem outlineOf_nil (brackets : List UInt8) : outlineOf brackets [] = some ⟨brackets, false⟩ := by
  rw [outlineOf]

theorem outlineOf_hash (brackets : List UInt8) (rest : Text) :
    outlineOf brackets (Byte.hash :: rest) = some ⟨brackets, false⟩ := by
  rw [outlineOf, if_pos rfl]

theorem outlineOf_closed {q : UInt8} (hq : Byte.isQuote q = true) {rest : Text} {size : Nat}
    (h : Token.literal? (q :: rest) = some (size, .complete)) (brackets : List UInt8) :
    outlineOf brackets (q :: rest) = outlineOf brackets (rest.drop (size - 1)) := by
  have hhash : q ≠ Byte.hash := by
    rintro rfl
    cases hq
  rw [outlineOf, if_neg hhash, if_pos hq, h]

theorem outlineOf_open {q : UInt8} (hq : Byte.isQuote q = true) {rest : Text} {size : Nat}
    (h : Token.literal? (q :: rest) = some (size, .unterminated)) (brackets : List UInt8) :
    outlineOf brackets (q :: rest) =
      if Delimiter.triple.isPrefixOf (q :: rest) then some ⟨brackets, true⟩ else none := by
  have hhash : q ≠ Byte.hash := by
    rintro rfl
    cases hq
  rw [outlineOf, if_neg hhash, if_pos hq, h]

theorem outlineOf_sign {b : UInt8} (hhash : b ≠ Byte.hash) (hquote : Byte.isQuote b = false)
    (brackets : List UInt8) (rest : Text) :
    outlineOf brackets (b :: rest) = (nest brackets b).bind fun next => outlineOf next rest := by
  rw [outlineOf, if_neg hhash, if_neg (by rw [hquote]; exact Bool.false_ne_true)]

/-- Plain bytes mean nothing. -/
theorem outlineOf_plain {p : Text} (h : ∀ b ∈ p, Byte.isPlain b = true) (brackets : List UInt8)
    (rest : Text) : outlineOf brackets (p ++ rest) = outlineOf brackets rest := by
  have hplain : ∀ {b}, Byte.isPlain b = true → b ≠ Byte.hash ∧ Byte.isQuote b = false :=
    @(Byte.all (by decide))
  induction p with
  | nil => rfl
  | cons b p ih =>
    obtain ⟨hb, hrest⟩ := List.forall_mem_cons.1 h
    obtain ⟨hhash, hquote⟩ := hplain hb
    rw [List.cons_append, outlineOf_sign hhash hquote, nest_plain hb, Option.bind_some, ih hrest]

/-! ## Tokens and bytes -/

theorem scanTokens_skip {line : Nat} {stack : Stack} {t : Token} {ts : List Token}
    (hkind : t.kind ≠ .string .unterminated) (hsign : signByte? t = none) :
    scanTokens line stack (t :: ts) = scanTokens line stack ts := by
  rw [scanTokens, if_neg hkind, hsign]

/-- The scan of the tokens and the scan of the bytes see the same. -/
theorem outline_scanTokens (pos line : Nat) (stack : Stack) (t : Text) :
    view (scanTokens line stack (Token.scan pos t)) = outlineOf (stack.map Prod.fst) t := by
  fun_induction Token.scan pos t generalizing stack with
  | case1 =>
    rw [outlineOf_nil]
    rfl
  | case2 pos b rest hgap ih =>
    rw [ih]
    exact (outlineOf_plain (p := [b]) (by simpa using Byte.isPlain_of_isGap hgap) _ rest).symm
  | case3 pos b rest hgap kind more hlex ih =>
    have hlexed := Token.lexed_lexeme b rest
    rw [hlex] at hlexed
    cases hlexed with
    | comment hhash =>
      rw [hhash, outlineOf_hash, List.drop_length, Token.scan_nil]
      rfl
    | @literal letters after q n more extent hbytes hletters hq hliteral hextent hmore =>
      have hplain : ∀ c ∈ letters, Byte.isPlain c = true := by
        have : ∀ {c}, Byte.isLiteralLetter c = true → Byte.isPlain c = true :=
          @(Byte.all (by decide))
        exact fun c hc => this (hletters c hc)
      rw [hbytes, outlineOf_plain hplain]
      cases extent with
      | complete =>
        have hdrop : rest.drop more = after.drop n := by
          rw [← List.drop_succ_cons (a := b), hbytes, show more = letters.length + n from hmore,
            Nat.add_assoc, ← List.drop_drop, List.drop_left, List.drop_succ_cons]
        rw [scanTokens_skip (by simp) rfl, ih, hdrop, outlineOf_closed hq hliteral]
        rfl
      | unterminated =>
        -- the token is all that is left, and opens a docstring with three double quotes
        have hlen := congrArg List.length hbytes
        have hsize := Token.literal?_unterminated hliteral
        simp only [List.length_cons, List.length_append] at hlen hsize
        have htext : (b :: rest.take more).dropWhile Byte.isLiteralLetter = q :: after := by
          rw [List.take_of_length_le (by omega), hbytes, List.dropWhile_append_of_pos hletters,
            List.dropWhile_cons_of_neg (by simp [Token.not_isLiteralLetter_of_isQuote hq])]
        rw [scanTokens, if_pos rfl, opensDocstring, htext, outlineOf_open hq hliteral]
        split <;> rfl
      | continued => exact absurd rfl hextent
    | plain hplain hword =>
      have hbytes : b :: rest = (b :: rest.take more) ++ rest.drop more := by simp
      rw [hbytes, outlineOf_plain hplain, ← ih]
      refine congrArg view (scanTokens_skip ?_ ?_)
      · rintro rfl
        simp at hword
      · rcases hword with rfl | rfl | ⟨rfl, hmore⟩
        · rfl
        · rfl
        · obtain ⟨c, cs, hcs⟩ := List.exists_cons_of_length_pos hmore
          rw [hcs]
          rfl
    | sign hhash hquote =>
      rw [outlineOf_sign hhash hquote, nest_eq_bracketStep line, List.drop_zero, scanTokens,
        if_neg (by simp)]
      simp only [signByte?, List.take_zero]
      cases bracketStep line stack b with
      | error fault => rfl
      | ok next => exact ih next

/-! ## Lines and texts -/

/-- Where the scan stands after one more line. -/
def Outline.line (s : Outline) (line : Text) : Option Outline :=
  match codePart? s.inside line with
  | none => some s
  | some code => outlineOf s.brackets code

/-- The outline of a state. -/
def State.outline (s : State) : Outline := ⟨s.stack.map Prod.fst, s.doc.isSome⟩

theorem State.outline_eq_start_iff {s : State} : s.outline = ⟨[], false⟩ ↔ s = start := by
  obtain ⟨stack, doc⟩ := s
  simp [outline, start]

theorem outline_step (s : State) (i : Nat) (line : Text) :
    (s.step i line).toOption.map State.outline = s.outline.line line := by
  unfold State.step Outline.line
  cases hcode : codePart? s.doc.isSome line with
  | none =>
    rw [show codePart? s.outline.inside line = none from hcode]
    rfl
  | some code =>
    rw [show codePart? s.outline.inside line = some code from hcode]
    have hscan := outline_scanTokens 0 i s.stack code
    simp only [Token.ofLine]
    rw [← show outlineOf (s.stack.map Prod.fst) code = outlineOf s.outline.brackets code from rfl,
      ← hscan]
    cases scanTokens i s.stack (Token.scan 0 code) with
    | error fault => rfl
    | ok pair =>
      obtain ⟨next, opened⟩ := pair
      cases opened <;> rfl

theorem outline_run (s : State) (i : Nat) (lines : List Text) :
    (s.run i lines).toOption.map State.outline = lines.foldlM Outline.line s.outline := by
  induction lines generalizing s i with
  | nil => rfl
  | cons line lines ih =>
    rw [List.foldlM_cons, ← outline_step s i line, State.run]
    cases s.step i line with
    | error fault => rfl
    | ok next => exact ih next (i + 1)

/-- **A text passes the check when its lines lead from the empty outline back to it.** -/
theorem check_eq_ok_iff_outline {t : Text} :
    check t = .ok () ↔ t.lines.foldlM Outline.line ⟨[], false⟩ = some ⟨[], false⟩ := by
  rw [check_eq_ok_iff, stateAt, List.take_length]
  have hrun := outline_run State.start 0 t.lines
  rw [← show State.start.outline = ⟨[], false⟩ from rfl, ← hrun]
  cases State.start.run 0 t.lines with
  | error fault => constructor <;> intro h <;> cases h
  | ok s =>
    simp only [Except.toOption, Option.map_some, Option.some.injEq, Except.ok.injEq]
    exact State.outline_eq_start_iff.symm

end Balance

end MojoLint
