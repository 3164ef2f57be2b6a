import Mathlib.Data.List.Forall2
import MojoLint.Proofs.Token.Tails

/-!
# Lexing around a space

A space ends every token but a comment and a literal that is still open. A text that ends in neither
of the two is lexed on its own in front of a space, whatever stands behind it
(`scan_space_of_closed`). In a text that does end in one of them, bytes put in behind it that neither
close a literal nor hide what follows become a part of that token and show nowhere else
(`alike_of_open`).
-/

namespace MojoLint

/-- The bytes neither open nor close a literal, and hide no byte behind them. -/
def Inert (t : Text) : Prop := ∀ b ∈ t, Byte.isQuote b = false ∧ b ≠ Byte.backslash

theorem Inert.cons_space {t : Text} (h : Inert t) : Inert (Byte.space :: t) :=
  List.forall_mem_cons.2 ⟨by decide, h⟩

theorem Byte.breaks_of_head_space {u : Text} : ∀ b ∈ (space :: u).head?, breaks b = true := by
  rintro _ ⟨⟩
  rfl

namespace Token

/-! ## Literals -/

section

variable {delim t u x : Text} (hdelim : ∀ b ∈ delim, Byte.isQuote b = true) (hne : delim ≠ [])
  (hx : Inert x)

include hdelim hne hx

theorem untilClosed_inert :
    untilClosed delim (x ++ u) =
      (x.length + (untilClosed delim u).1, (untilClosed delim u).2) := by
  induction x with
  | nil => rw [List.nil_append, List.length_nil, Nat.zero_add]
  | cons b x ih =>
    obtain ⟨⟨hquote, hb⟩, hx⟩ := List.forall_mem_cons.1 hx
    have hprefix : ¬ delim.isPrefixOf (b :: (x ++ u)) = true := by
      have hhead : ∀ c ∈ (b :: (x ++ u)).head?, Byte.isQuote c = false := by
        rintro _ ⟨⟩
        exact hquote
      have hsame := isPrefixOf_append_of_head hdelim hhead []
      rw [List.nil_append] at hsame
      obtain ⟨d, ds, rfl⟩ := List.exists_cons_of_ne_nil hne
      rw [hsame]
      exact Bool.false_ne_true
    rw [List.cons_append, untilClosed_onward hb hprefix, ih hx, List.length_cons]
    simp only [Prod.mk.injEq, and_true]
    omega

/-- A literal that is open in front of inert bytes is open behind them. -/
theorem untilClosed_append_of_open (h : (untilClosed delim t).2 = false) :
    untilClosed delim (t ++ Byte.space :: (x ++ u)) =
      (t.length + 1 + x.length + (untilClosed delim u).1, (untilClosed delim u).2) := by
  fun_induction untilClosed delim t with
  | case1 =>
    rw [List.nil_append, ← List.cons_append, untilClosed_inert hdelim hne hx.cons_space,
      List.length_cons, List.length_nil, Nat.zero_add, Nat.add_comm 1]
  | case2 =>
    -- the backslash hides the space
    simp only [List.cons_append, List.nil_append, untilClosed, if_true,
      untilClosed_inert hdelim hne hx, List.length_cons, List.length_nil, Prod.mk.injEq, and_true]
    omega
  | case3 c after n closed hrec ih =>
    rw [hrec] at ih
    simp only [List.cons_append, untilClosed, if_true, ih h, List.length_cons, Prod.mk.injEq,
      and_true]
    omega
  | case4 => cases h
  | case5 b rest hb hprefix n closed hrec ih =>
    rw [hrec] at ih
    rw [List.cons_append, untilClosed_onward hb, ih h]
    · simp only [List.length_cons, Prod.mk.injEq, and_true]
      omega
    · rwa [← List.cons_append, isPrefixOf_append_of_head hdelim (by rintro _ ⟨⟩; rfl)]

end

/-! ## Tokens -/

/-- A comment or a literal that is still open takes inert bytes up. Where it ends behind them, and
as what, does not depend on them. -/
theorem lexeme_of_open {b : UInt8} {rest : Text}
    (h : (lexeme b rest).1 = .comment ∨ (lexeme b rest).1 = .string .unterminated) (u : Text) :
    ∃ kind more, kind ≠ .ident ∧ kind ≠ .punct ∧ ∀ x, Inert x →
      lexeme b (rest ++ Byte.space :: (x ++ u)) = (kind, rest.length + 1 + x.length + more) := by
  by_cases hhash : b = Byte.hash
  · refine ⟨.comment, u.length, by simp, by simp, fun x _ => ?_⟩
    rw [lexeme, if_pos hhash, List.length_append, List.length_cons, List.length_append]
    simp only [Prod.mk.injEq, true_and]
    omega
  · unfold lexeme at h
    rw [if_neg hhash] at h
    cases hl : literal? (b :: rest) with
    | some pair =>
      obtain ⟨size, extent⟩ := pair
      obtain ⟨front, body, delim, ht, hdelim, hne, hliteral⟩ := exists_body_of_literal? hl
      have hself := hliteral [] (by simp)
      rw [List.append_nil, List.append_nil, hl, Option.some.injEq, Prod.mk.injEq] at hself
      have hopen : (untilClosed delim body).2 = false := by
        by_contra hclosed
        rw [Bool.not_eq_false] at hclosed
        rw [hl, hself.2, hclosed] at h
        simp at h
      refine ⟨.string (if (untilClosed delim u).2 then .complete else .unterminated),
        (untilClosed delim u).1, by simp, by simp, fun x hx => ?_⟩
      have hlength := congrArg List.length ht
      rw [List.length_cons, List.length_append] at hlength
      rw [lexeme, if_neg hhash, ← List.cons_append, hliteral _ Byte.breaks_of_head_space,
        untilClosed_append_of_open hdelim hne hx hopen]
      simp only [Prod.mk.injEq, true_and]
      omega
    | none =>
      rw [hl] at h
      simp only at h
      split at h
      · simp at h
      · split at h <;> simp at h

/-! ## Scans -/

/-- **A text in front of a space** is lexed on its own, unless it ends in a comment or in a literal
that is open. -/
theorem scan_space_of_closed {pos : Nat} {t : Text} (h : ∀ x ∈ scan pos t, ¬ x.endsLine)
    (u : Text) :
    scan pos (t ++ Byte.space :: u) = scan pos t ++ scan (pos + t.length + 1) u := by
  fun_induction scan pos t with
  | case1 pos => exact scan_gap pos u rfl
  | case2 pos b rest hgap ih =>
    rw [List.cons_append, scan_gap pos _ hgap, ih h, List.length_cons, Nat.add_comm rest.length,
      ← Nat.add_assoc pos]
  | case3 pos b rest hgap kind more hlex ih =>
    obtain ⟨hfirst, hlater⟩ := List.forall_mem_cons.1 h
    obtain ⟨hsame, hle⟩ := @lexeme_of_breaks b rest (Byte.space :: u)
      Byte.breaks_of_head_space (by rw [hlex]; exact hfirst)
    rw [hlex] at hsame hle
    have hpos : pos + more + 1 + (rest.drop more).length = pos + (b :: rest).length := by
      rw [List.length_drop, List.length_cons]
      omega
    rw [List.cons_append, scan_lexeme pos _ hgap, hsame]
    simp only [List.take_append_of_le_length hle, List.drop_append_of_le_length hle, ih hlater,
      hpos, List.cons_append]

/-- The tokens are the same, but for their columns and for what stands in a literal, a number or a
comment. -/
structure Alike (t u : Token) : Prop where
  kind : t.kind = u.kind
  text : t.kind = .ident ∨ t.kind = .punct → t.text = u.text

theorem Alike.refl (t : Token) : Alike t t := ⟨rfl, fun _ => rfl⟩

theorem alike_refl (ts : List Token) : List.Forall₂ Alike ts ts :=
  List.forall₂_same.2 fun t _ => .refl t

/-- **What is put into a literal or a comment** shows in that token alone. -/
theorem alike_of_open {pos : Nat} {t x y : Text} (h : ∃ z ∈ scan pos t, z.endsLine) (hx : Inert x)
    (hy : Inert y) (hlength : x.length = y.length) (u : Text) :
    List.Forall₂ Alike (scan pos (t ++ Byte.space :: (x ++ u)))
      (scan pos (t ++ Byte.space :: (y ++ u))) := by
  fun_induction scan pos t with
  | case1 =>
    obtain ⟨z, hz, -⟩ := h
    cases hz
  | case2 pos b rest hgap ih =>
    rw [List.cons_append, List.cons_append, scan_gap pos _ hgap, scan_gap pos _ hgap]
    exact ih h
  | case3 pos b rest hgap kind more hlex ih =>
    rw [List.cons_append, List.cons_append, scan_lexeme pos _ hgap, scan_lexeme pos _ hgap]
    by_cases hend : kind = .comment ∨ kind = .string .unterminated
    · obtain ⟨kind', more', hident, hpunct, hlong⟩ :=
        @lexeme_of_open b rest (by rw [hlex]; exact hend) u
      have hdrop : ∀ v : Text, (rest ++ Byte.space :: (v ++ u)).drop
          (rest.length + 1 + v.length + more') = u.drop more' := by
        intro v
        have hfront : (rest ++ Byte.space :: v).length = rest.length + 1 + v.length := by
          rw [List.length_append, List.length_cons]
          omega
        rw [← hfront, ← List.cons_append, ← List.append_assoc, List.drop_length_add_append]
      rw [hlong x hx, hlong y hy]
      refine .cons ⟨rfl, fun hkind => absurd hkind (by simp [hident, hpunct])⟩ ?_
      simp only [hdrop]
      rw [hlength]
      exact alike_refl _
    · have hsame := fun v => @lexeme_of_breaks b rest (Byte.space :: v)
        Byte.breaks_of_head_space (by rw [hlex]; exact hend)
      have hle := (hsame []).2
      rw [hlex] at hle
      rw [(hsame _).1, (hsame _).1, hlex]
      simp only [List.take_append_of_le_length hle, List.drop_append_of_le_length hle]
      refine .cons (.refl _) (ih ?_)
      obtain ⟨z, hz, hzend⟩ := h
      rcases List.mem_cons.1 hz with rfl | hz
      · exact absurd hzend hend
      · exact ⟨z, hz, hzend⟩

end Token

end MojoLint
