import MojoLint.Token.Lexer

/-!
# What the lexer puts at the end of a line

A comment and a string that the line does not close take all that remains of their line, so no
token stands behind one of them (`scan_pairwise`).
-/

namespace MojoLint.Token

/-- Whether the token can only be the last one of its line. -/
def endsLine (t : Token) : Prop := t.kind = .comment ∨ t.kind = .string .unterminated

/-- A literal that is not closed reaches to the end of the line. -/
theorem untilClosed_open {delim t : Text} (h : (untilClosed delim t).2 = false) :
    (untilClosed delim t).1 = t.length := by
  fun_induction untilClosed delim t with
  | case1 => rfl
  | case2 => rfl
  | case3 c after n closed hrec ih =>
    rw [hrec] at ih
    have := ih h
    simp only [List.length_cons]
    omega
  | case4 => cases h
  | case5 b rest _ _ n closed hrec ih =>
    rw [hrec] at ih
    have := ih h
    simp only [List.length_cons]
    omega

theorem literal?_unterminated {rest : Text} {size : Nat}
    (h : literal? rest = some (size, .unterminated)) : rest.length ≤ size := by
  unfold literal? at h
  simp only at h
  split at h
  · cases h
  · rename_i q after hdrop
    split at h
    · have hpos : 1 ≤ if [q, q].isPrefixOf after = true then 3 else 1 := by split <;> decide
      generalize (if [q, q].isPrefixOf after = true then 3 else 1) = quotes at h hpos
      simp only [Option.some.injEq, Prod.mk.injEq] at h
      obtain ⟨hsize, hopen⟩ := h
      have hlen := congrArg List.length hdrop
      simp only [List.length_drop, List.length_cons] at hlen
      split at hopen
      · cases hopen
      · rename_i hclosed
        have huntil := untilClosed_open (Bool.eq_false_iff.2 hclosed)
        rw [List.length_drop] at huntil
        omega
    · cases h

/-- A token that ends its line takes all its bytes. -/
theorem lexeme_endsLine {b : UInt8} {rest : Text}
    (h : (lexeme b rest).1 = .comment ∨ (lexeme b rest).1 = .string .unterminated) :
    rest.length ≤ (lexeme b rest).2 := by
  unfold lexeme at h ⊢
  split
  · exact Nat.le_refl _
  · rename_i hb
    rw [if_neg hb] at h
    cases hl : literal? (b :: rest) with
    | none =>
      simp only [hl] at h
      split at h
      · simp at h
      · split at h <;> simp at h
    | some pair =>
      obtain ⟨size, extent⟩ := pair
      simp only [hl] at h ⊢
      have he : extent = .unterminated := by simpa using h
      subst he
      have := literal?_unterminated hl
      simp only [List.length_cons] at this
      omega

/-- No token stands behind one that ends its line. -/
theorem scan_pairwise (pos : Nat) (line : Text) :
    (scan pos line).Pairwise fun a _ => ¬ a.endsLine := by
  fun_induction scan pos line with
  | case1 => exact List.Pairwise.nil
  | case2 pos b rest hgap ih => exact ih
  | case3 pos b rest hgap kind more hlex ih =>
    refine List.pairwise_cons.2 ⟨fun t ht hend => ?_, ih⟩
    have hall : (lexeme b rest).1 = .comment ∨ (lexeme b rest).1 = .string .unterminated →
        rest.length ≤ (lexeme b rest).2 := lexeme_endsLine
    rw [hlex] at hall
    have hle : rest.length ≤ more := hall hend
    rw [List.drop_eq_nil_of_le hle, scan_nil] at ht
    exact absurd ht List.not_mem_nil

theorem ofLine_pairwise (line : Text) : (ofLine line).Pairwise fun a _ => ¬ a.endsLine :=
  scan_pairwise 0 line

end MojoLint.Token
