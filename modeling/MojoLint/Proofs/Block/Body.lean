import MojoLint.Block.Body
import MojoLint.Exclusion.Lookup

/-!
# Blocks and their code lines

A block lies within the lines it was read from, right behind its header (`at?_spec`).

`codeLinesFrom` walks through lines with one bit that says whether a literal is open. That bit is
the parity of the delimiters met so far, so a line is a code line by a condition on the lines before
it alone.
-/

namespace MojoLint.Block

open Exclusion (delimitersBefore)

/-! ## The place of a block -/

theorem linesToColon_lt {depth n : Nat} {ls : List Text} (h : linesToColon depth ls = some n) :
    n < ls.length := by
  induction ls generalizing depth n with
  | nil => cases h
  | cons line rest ih =>
    unfold linesToColon at h
    split at h
    · cases h
      exact Nat.succ_pos _
    · cases h
    · obtain ⟨m, hm, rfl⟩ := Option.map_eq_some_iff.1 h
      exact Nat.succ_lt_succ (ih hm)

/-- A header ends on one of the lines, not before the line where it starts. -/
theorem headerEnd?_spec {lines : List Text} {i e : Nat} (h : headerEnd? lines i = some e) :
    i ≤ e ∧ e < lines.length := by
  obtain ⟨n, hn, rfl⟩ := Option.map_eq_some_iff.1 h
  have := linesToColon_lt hn
  rw [List.length_drop] at this
  omega

theorem length_withoutTrailing_le (indent : UInt32) (body : List Text) :
    (withoutTrailing indent body).length ≤ body.length := by
  unfold withoutTrailing
  rw [List.length_reverse]
  calc (body.reverse.dropWhile (trails indent)).length
      ≤ body.reverse.length := (List.dropWhile_sublist _).length_le
    _ = body.length := List.length_reverse

/-- The block of a header starts behind it and ends within the lines. -/
theorem at?_spec {lines : List Text} {i : Nat} {b : Block} (h : at? lines i = some b) :
    b.header = i ∧ headerEnd? lines i = some b.headerEnd ∧ b.first = b.headerEnd + 1 ∧
      b.first ≤ b.stop ∧ b.stop ≤ lines.length := by
  obtain ⟨e, he, rfl⟩ := Option.map_eq_some_iff.1 h
  have hlt := (headerEnd?_spec he).2
  refine ⟨rfl, he, rfl, Nat.le_add_right _ _, ?_⟩
  have hbody := length_withoutTrailing_le (Line.indent ((lines[i]?).getD []))
    ((lines.drop (e + 1)).take
      (reach (Line.indent ((lines[i]?).getD [])) false (lines.drop (e + 1))))
  rw [List.length_take, List.length_drop] at hbody
  simp only
  omega

/-! ## Code lines -/

/-- Line `n` of the lines is `line`, and a walk that enters them in a literal or not takes it for
code. -/
def IsCodeLine (inLiteral : Bool) (ls : List Text) (n : Nat) (line : Text) : Prop :=
  ls[n]? = some line ∧ (inLiteral != (delimitersBefore ls n % 2 == 1)) = false ∧
    Delimiter.count line = 0 ∧ Line.isBlankOrComment line = false

theorem isCodeLine_zero {inLiteral : Bool} {l line : Text} {rest : List Text} :
    IsCodeLine inLiteral (l :: rest) 0 line ↔
      line = l ∧ inLiteral = false ∧ Delimiter.count l = 0 ∧ Line.isBlankOrComment l = false := by
  unfold IsCodeLine
  constructor
  · rintro ⟨hget, hpar, hcount, hblank⟩
    cases hget
    exact ⟨rfl, by simpa [delimitersBefore] using hpar, hcount, hblank⟩
  · rintro ⟨rfl, hin, hcount, hblank⟩
    exact ⟨rfl, by simpa [delimitersBefore] using hin, hcount, hblank⟩

theorem isCodeLine_succ {inLiteral : Bool} {l line : Text} {rest : List Text} {n : Nat} :
    IsCodeLine inLiteral (l :: rest) (n + 1) line ↔
      IsCodeLine (inLiteral != (Delimiter.count l % 2 == 1)) rest n line := by
  have hsum : delimitersBefore (l :: rest) (n + 1) =
      Delimiter.count l + delimitersBefore rest n := rfl
  unfold IsCodeLine
  rw [hsum, Delimiter.odd_add, Bool.bne_assoc, List.getElem?_cons_succ]

theorem mem_codeLinesFrom_iff {i k : Nat} {inLiteral : Bool} {ls : List Text} {line : Text} :
    (k, line) ∈ codeLinesFrom i inLiteral ls ↔
      ∃ n, k = i + n ∧ IsCodeLine inLiteral ls n line := by
  induction ls generalizing i inLiteral with
  | nil => simp [codeLinesFrom, IsCodeLine]
  | cons l rest ih =>
    have hsplit : (∃ n, k = i + n ∧ IsCodeLine inLiteral (l :: rest) n line) ↔
        (k = i ∧ line = l ∧ inLiteral = false ∧ Delimiter.count l = 0 ∧
          Line.isBlankOrComment l = false) ∨
        (k, line) ∈ codeLinesFrom (i + 1) (inLiteral != (Delimiter.count l % 2 == 1)) rest := by
      rw [ih]
      constructor
      · rintro ⟨n, rfl, h⟩
        cases n with
        | zero => exact .inl ⟨rfl, isCodeLine_zero.1 h⟩
        | succ n => exact .inr ⟨n, by omega, isCodeLine_succ.1 h⟩
      · rintro (⟨rfl, h⟩ | ⟨n, rfl, h⟩)
        · exact ⟨0, rfl, isCodeLine_zero.2 h⟩
        · exact ⟨n + 1, by omega, isCodeLine_succ.2 h⟩
    rw [hsplit, codeLinesFrom]
    split
    · rename_i hskip
      constructor
      · exact .inr
      · rintro (⟨-, -, hin, hcount, hblank⟩ | h)
        · simp [hin, hcount, hblank] at hskip
        · exact h
    · rename_i hcode
      simp only [Bool.or_eq_true, decide_eq_true_eq, not_or, Bool.not_eq_true, Nat.not_lt,
        Nat.le_zero] at hcode
      rw [List.mem_cons, Prod.mk.injEq]
      constructor
      · rintro (⟨rfl, rfl⟩ | h)
        · exact .inl ⟨rfl, rfl, hcode.1.1, hcode.1.2, hcode.2⟩
        · exact .inr h
      · rintro (⟨rfl, rfl, -⟩ | h)
        · exact .inl ⟨rfl, rfl⟩
        · exact .inr h

/-- **The code lines of a block**: those of its body behind an even number of delimiters that hold
none themselves and are neither blank nor a comment. -/
theorem mem_codeLines_iff {b : Block} {lines : List Text} {k : Nat} {line : Text} :
    (k, line) ∈ b.codeLines lines ↔
      b.first ≤ k ∧ k < b.stop ∧ lines[k]? = some line ∧
        delimitersBefore (lines.drop b.first) (k - b.first) % 2 = 0 ∧
        Delimiter.count line = 0 ∧ Line.isBlankOrComment line = false := by
  unfold codeLines body
  rw [mem_codeLinesFrom_iff]
  unfold IsCodeLine
  have hparity : ∀ n, n < b.stop - b.first →
      ((false != (delimitersBefore ((lines.drop b.first).take (b.stop - b.first)) n % 2 == 1)) =
        false ↔ delimitersBefore (lines.drop b.first) n % 2 = 0) := by
    intro n hn
    unfold delimitersBefore
    rw [List.take_take, Nat.min_eq_left (Nat.le_of_lt hn)]
    simp
  constructor
  · rintro ⟨n, rfl, hget, hpar, hcount, hblank⟩
    rw [List.getElem?_take] at hget
    split at hget
    · rename_i hn
      rw [List.getElem?_drop] at hget
      refine ⟨Nat.le_add_right _ _, by omega, hget, ?_, hcount, hblank⟩
      rw [Nat.add_sub_cancel_left]
      exact (hparity n hn).1 hpar
    · cases hget
  · rintro ⟨hfirst, hstop, hget, hpar, hcount, hblank⟩
    have hn : k - b.first < b.stop - b.first := by omega
    refine ⟨k - b.first, by omega, ?_, (hparity _ hn).2 hpar, hcount, hblank⟩
    rw [List.getElem?_take, if_pos hn, List.getElem?_drop, Nat.add_sub_cancel' hfirst]
    exact hget

end MojoLint.Block
