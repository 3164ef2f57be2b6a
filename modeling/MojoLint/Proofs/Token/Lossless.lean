import Mathlib.Data.List.TakeWhile
import MojoLint.Proofs.Balance.Outline
import MojoLint.Proofs.Text.Offsets
import MojoLint.Proofs.Token.Slices
import MojoLint.Token.CodeView

/-!
# What a line keeps when it is lexed

Tokens that are laid out in a line (`Laid`) can be found there again by their columns, as long as a
word can hold every column: each token is the slice at its column, the tokens follow each other, and
only gap bytes lie outside them. The code view relies on that. It copies the slices between the
tokens (`kept`), and none of them ends before it starts, so that its subtractions never wrap.
`Lossless` puts all of this together for the tokens of a line, and `lexing_lossless` has it both for
lines lexed on their own and for lines that finish a literal.
-/

namespace MojoLint.Token

/-- The column just behind a token. -/
def stop (t : Token) : Nat := t.column.toNat + t.text.length

/-! ## Columns of tokens that are laid out -/

section

variable {pos : Nat} {line : Text} {ts : List Token}

theorem Laid.column_of_cons {gap rest : Text} {t : Token} (bytes : line = gap ++ t.text ++ rest)
    (column : t.column = (pos + gap.length).toUInt32) (hsize : pos + line.length < UInt32.size) :
    t.column.toNat = pos + gap.length ∧ t.stop = pos + gap.length + t.text.length ∧
      t.stop + rest.length = pos + line.length := by
  have hlength := congrArg List.length bytes
  rw [List.length_append, List.length_append] at hlength
  have hcolumn : t.column.toNat = pos + gap.length := by
    rw [column, Number.toNat_word (by omega)]
  rw [stop, hcolumn]
  exact ⟨rfl, rfl, by omega⟩

theorem Laid.le_column (h : Laid pos line ts) (hsize : pos + line.length < UInt32.size)
    {t : Token} (ht : t ∈ ts) : pos ≤ t.column.toNat := by
  obtain ⟨before, after, hline, hcolumn⟩ := h.exists_slice ht
  rw [List.append_assoc] at hline
  have hlength := congrArg List.length hline
  rw [List.length_append] at hlength
  rw [hcolumn, Number.toNat_word (by omega)]
  exact Nat.le_add_right _ _

theorem Laid.nonempty (h : Laid pos line ts) : ∀ t ∈ ts, t.text ≠ [] := by
  induction h with
  | nil => exact List.forall_mem_nil _
  | cons bytes between column nonempty later ih => exact List.forall_mem_cons.2 ⟨nonempty, ih⟩

theorem Laid.slice (h : Laid 0 line ts) (hsize : line.length < UInt32.size) :
    ∀ t ∈ ts, (line.drop t.column.toNat).take t.text.length = t.text := by
  intro t ht
  obtain ⟨before, after, hline, hcolumn⟩ := h.exists_slice ht
  have hlength := congrArg List.length hline
  rw [List.length_append, List.length_append] at hlength
  rw [hcolumn, Number.toNat_word (by omega), Nat.zero_add, hline, List.append_assoc,
    List.drop_left, List.take_left]

theorem Laid.ordered (h : Laid pos line ts) (hsize : pos + line.length < UInt32.size) :
    ts.Pairwise fun t u => t.stop ≤ u.column.toNat := by
  induction h with
  | nil => exact List.Pairwise.nil
  | @cons pos line gap rest t ts bytes between column nonempty later ih =>
    obtain ⟨-, hstop, hrest⟩ := column_of_cons bytes column hsize
    rw [← hstop] at later ih
    refine List.pairwise_cons.2 ⟨fun u hu => later.le_column (by omega) hu, ih (by omega)⟩

/-- What no token takes up is a gap. -/
theorem Laid.isGap_outside (h : Laid pos line ts) (hsize : pos + line.length < UInt32.size)
    {n : Nat} {b : UInt8} (hb : (line)[n]? = some b)
    (hout : ∀ t ∈ ts, pos + n < t.column.toNat ∨ t.stop ≤ pos + n) : Byte.isGap b = true := by
  induction h generalizing n with
  | nil gap => exact gap b (List.mem_of_getElem? hb)
  | @cons pos line gap rest t ts bytes between column nonempty later ih =>
    obtain ⟨hcolumn, hstop, hrest⟩ := column_of_cons bytes column hsize
    rw [← hstop] at later ih
    obtain ⟨hfirst, hothers⟩ := List.forall_mem_cons.1 hout
    rcases hfirst with hbefore | hbehind
    · rw [bytes, List.append_assoc, List.getElem?_append_left (by omega)] at hb
      exact between b (List.mem_of_getElem? hb)
    · have hpos : t.stop + (pos + n - t.stop) = pos + n := Nat.add_sub_cancel' hbehind
      refine ih (n := pos + n - t.stop) (by omega) ?_ fun u hu => hpos.symm ▸ hothers u hu
      rw [bytes, List.getElem?_append_right (by rw [List.length_append]; omega)] at hb
      rw [← hb, List.length_append]
      congr 1
      omega

end

/-! ## The slices that a code view keeps -/

/-- The slices that a code view of `size` bytes copies from the column `pos` on: up to each token,
and behind the last one up to the end unless a comment ends the view. -/
def kept (size pos : Nat) : List Token → List (Nat × Nat)
  | [] => [(pos, size)]
  | t :: ts => (pos, t.column.toNat) :: if t.kind = .comment then [] else kept size t.stop ts

/-- The bytes of a line from one column to another. -/
def between (line : Text) (s : Nat × Nat) : Text := (line.drop s.1).take (s.2 - s.1)

/-- The code of the tokens with the slices of the line around it. -/
def woven (line : Text) (slices : List (Nat × Nat)) (ts : List Token) : Text :=
  (List.zipWith (fun s c => between line s ++ c) slices (ts.map code ++ [[]])).flatten

section

variable {pos : Nat} {line : Text} {ts : List Token}

/-- **No slice ends before it starts.** -/
theorem Laid.kept_le (h : Laid pos line ts) (hsize : pos + line.length < UInt32.size) :
    ∀ s ∈ kept (pos + line.length) pos ts, s.1 ≤ s.2 ∧ s.2 ≤ pos + line.length := by
  induction h with
  | nil =>
    intro s hs
    obtain rfl := List.mem_singleton.1 hs
    exact ⟨Nat.le_add_right _ _, Nat.le_refl _⟩
  | @cons pos line gap rest t ts bytes between column nonempty later ih =>
    obtain ⟨hcolumn, hstop, hrest⟩ := column_of_cons bytes column hsize
    rw [← hstop, hrest] at ih
    refine List.forall_mem_cons.2 ⟨⟨by omega, by omega⟩, fun s hs => ?_⟩
    split at hs
    · cases hs
    · exact ih hsize s hs

/-- A code view puts the slices it keeps around the code of the tokens. -/
theorem Laid.codeFrom_eq (h : Laid pos line ts) (hsize : pos + line.length < UInt32.size)
    (before : Text) (hbefore : before.length = pos) :
    codeFrom pos line ts = woven (before ++ line) (kept (pos + line.length) pos ts) ts := by
  induction h generalizing before with
  | @nil pos line =>
    have hslice : between (before ++ line) (pos, pos + line.length) = line := by
      rw [between, List.drop_left' hbefore, Nat.add_sub_cancel_left, List.take_length]
    simp [codeFrom, kept, woven, hslice]
  | @cons pos line gap rest t ts bytes gaps column nonempty later ih =>
    obtain ⟨hcolumn, hstop, hrest⟩ := column_of_cons bytes column hsize
    rw [← hstop] at later ih
    have hslice : between (before ++ line) (pos, t.column.toNat) = gap := by
      rw [between, List.drop_left' hbefore, hcolumn, Nat.add_sub_cancel_left, bytes,
        List.append_assoc, List.take_left]
    have hwhole : before ++ line = (before ++ gap ++ t.text) ++ rest := by
      rw [bytes]
      simp only [List.append_assoc]
    have hlater := ih (by omega) (before ++ gap ++ t.text)
      (by rw [List.length_append, List.length_append]; omega)
    rw [← hwhole, hrest] at hlater
    have hview : codeFrom pos line (t :: ts) =
        if t.kind = .comment then gap else gap ++ t.code ++ codeFrom t.stop rest ts := by
      rw [hstop, bytes]
      exact codeFrom_cons hcolumn
    rw [hview, kept]
    by_cases hcomment : t.kind = .comment
    · have hcode : t.code = [] := by rw [code, hcomment]
      simp [hcomment, woven, hslice, hcode]
    · rw [if_neg hcomment, if_neg hcomment, hlater]
      simp [woven, hslice]

end

/-! ## Lines that finish a literal -/

theorem ofClosingLine_of_le {line : Text} {closed : Nat} (hpos : 0 < closed)
    (hle : closed ≤ line.length) :
    ofClosingLine line closed = tailOf line closed :: scan closed (line.drop closed) := by
  rw [ofClosingLine, if_neg]
  omega

/-- The tail of a literal and the tokens behind it are laid out like any others, unless the tail is
nothing but indentation. -/
theorem laid_ofClosingLine {line : Text} {closed : Nat} (hpos : 0 < closed)
    (hle : closed ≤ line.length) (htail : ∃ b ∈ line.take closed, Byte.isIndent b = false) :
    Laid 0 line (ofClosingLine line closed) := by
  have hlength : (line.take closed).length = closed := List.length_take_of_le hle
  have htext : (tailOf line closed).text = (line.take closed).dropWhile Byte.isIndent :=
    Text.drop_length_takeWhile Byte.isIndent (line.take closed)
  have hbytes : line = (line.take closed).takeWhile Byte.isIndent ++ (tailOf line closed).text ++
      line.drop closed := by
    rw [htext, List.takeWhile_append_dropWhile, List.take_append_drop]
  have hindent : ∀ {b}, Byte.isIndent b = true → Byte.isGap b = true := @(Byte.all (by decide))
  rw [ofClosingLine_of_le hpos hle]
  refine .cons hbytes ?_ ?_ ?_ ?_
  · exact fun b hb => hindent (List.all_eq_true.1 List.all_takeWhile b hb)
  · rw [Nat.zero_add]
    rfl
  · rw [htext, Ne, List.dropWhile_eq_nil_iff]
    obtain ⟨b, hb, hcode⟩ := htail
    intro hall
    rw [hall b hb] at hcode
    cases hcode
  · rw [htext, Nat.zero_add, ← List.length_append, List.takeWhile_append_dropWhile, hlength]
    exact laid_scan closed _

theorem ofClosingLine_pairwise (line : Text) (closed : Nat) :
    (ofClosingLine line closed).Pairwise fun a _ => ¬ a.endsLine := by
  unfold ofClosingLine
  split
  · exact ofLine_pairwise line
  · refine List.pairwise_cons.2 ⟨fun _ _ hend => ?_, scan_pairwise _ _⟩
    rcases hend with hend | hend <;> cases hend

/-- No token of a scan continues a literal. -/
theorem ne_continued_of_mem_scan {pos : Nat} {line : Text} {t : Token} (h : t ∈ scan pos line) :
    t.kind ≠ .string .continued := by
  obtain ⟨b, rest, -, -, hkind, -⟩ := exists_lexeme_of_mem_scan h
  have hlexed := lexed_lexeme b rest
  intro hcontinued
  rw [← hkind, hcontinued] at hlexed
  cases hlexed with
  | literal bytes isLetter isQuote literal extent_ne more_eq => exact extent_ne rfl
  | plain isPlain isWord => simp at isWord

/-! ## Nothing is lost -/

/-- The tokens hold all of a line but its gaps, in order, and the code view can rely on it. -/
structure Lossless (line : Text) (ts : List Token) : Prop where
  nonempty : ∀ t ∈ ts, t.text ≠ []
  slice : ∀ t ∈ ts, (line.drop t.column.toNat).take t.text.length = t.text
  ordered : ts.Pairwise fun t u => t.stop ≤ u.column.toNat
  outside : ∀ n b, (line)[n]? = some b → (∀ t ∈ ts, n < t.column.toNat ∨ t.stop ≤ n) →
    b = Byte.space ∨ b = Byte.tab ∨ b = Byte.cr
  last : ∀ t ∈ ts.dropLast, t.kind ≠ .comment ∧ t.kind ≠ .string .unterminated
  kept_le : ∀ s ∈ kept line.length 0 ts, s.1 ≤ s.2 ∧ s.2 ≤ line.length
  codeView : codeView ts line = Text.trimRight (woven line (kept line.length 0 ts) ts)

theorem Laid.lossless {line : Text} {ts : List Token} (h : Laid 0 line ts)
    (hsize : line.length < UInt32.size) (hlast : ts.Pairwise fun a _ => ¬ a.endsLine) :
    Lossless line ts := by
  have hsize' : 0 + line.length < UInt32.size := by rwa [Nat.zero_add]
  have hkept := h.kept_le hsize'
  have hview := h.codeFrom_eq hsize' [] rfl
  rw [Nat.zero_add] at hkept hview
  refine ⟨h.nonempty, h.slice hsize, h.ordered hsize', ?_, ?_, hkept,
    congrArg Text.trimRight hview⟩
  · intro n b hb hout
    have hgap := h.isGap_outside hsize' hb (by simpa using hout)
    simpa [Byte.isGap, or_assoc] using hgap
  · intro t ht
    have hne : ts ≠ [] := by
      rintro rfl
      cases ht
    rw [← List.dropLast_concat_getLast hne, List.pairwise_append] at hlast
    exact not_or.1 (hlast.2.2 t ht _ List.mem_cons_self)

/-- **The lexer loses no byte**, whether a line is lexed on its own or finishes a literal behind its
first `closed` bytes. In the second case the first token is what is left of the literal, and the
only one that continues it. -/
theorem lexing_lossless (line : Text) (closed : Nat) (hsize : line.length < UInt32.size) :
    Lossless line (ofLine line) ∧
      (0 < closed → closed ≤ line.length → (∃ b ∈ line.take closed, Byte.isIndent b = false) →
        Lossless line (ofClosingLine line closed) ∧
          ∃ head rest, ofClosingLine line closed = head :: rest ∧
            head.kind = .string .continued ∧ head.stop = closed ∧
            ∀ t ∈ rest, t.kind ≠ .string .continued) := by
  refine ⟨(laid_ofLine line).lossless hsize (ofLine_pairwise line), fun hpos hle htail => ?_⟩
  have hlaid := laid_ofClosingLine hpos hle htail
  refine ⟨hlaid.lossless hsize (ofClosingLine_pairwise line closed), _, _,
    ofClosingLine_of_le hpos hle, rfl, ?_, fun t ht => ne_continued_of_mem_scan ht⟩
  have hindent := (List.takeWhile_prefix (l := line.take closed) Byte.isIndent).length_le
  rw [List.length_take_of_le hle] at hindent
  rw [stop, tailOf, Number.toNat_word (by omega), List.length_drop, List.length_take_of_le hle]
  exact Nat.add_sub_cancel' hindent

/-- A line that finishes a literal behind its indentation, with a comment at its end. -/
theorem lexing_lossless_closing :
    let line : Text := "  end\"\"\" + f('a')  # rest"
    line.length < UInt32.size ∧ Lossless line (ofLine line) ∧
      Lossless line (ofClosingLine line 8) := by
  repeat rw [Text.ofString_ofList]
  intro line
  have hsize : line.length < UInt32.size := by decide +kernel
  obtain ⟨hline, hclosing⟩ := lexing_lossless line 8 hsize
  obtain ⟨hclosing, -⟩ := hclosing (by decide) (by decide +kernel) (by decide +kernel)
  exact ⟨hsize, hline, hclosing⟩

end MojoLint.Token
