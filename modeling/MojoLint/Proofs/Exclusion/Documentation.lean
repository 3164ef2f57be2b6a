import MojoLint.Proofs.Balance.Scan
import MojoLint.Proofs.Exclusion.Pass

/-!
# Documentation and the delimiter count

Two trackers follow docstrings. The structure scan lexes its lines, so it reads a delimiter only
where a docstring starts or ends. The exclusion pass counts every delimiter, also those in comments
and inside other strings. Both go by parity, so on a line that the scan leaves inside a docstring
the pass is right exactly when it has counted as many delimiters as the scan has read, up to an
even number. One delimiter in a comment is enough to turn it around for the rest of the text.
-/

namespace MojoLint.Exclusion

open Balance (insideAt readBefore)

/-- The scan of a well-structured text is inside a docstring only before one of its lines. -/
theorem lt_length_of_insideAt {t : Text} (h : Balance.check t = .ok ()) {n : Nat}
    (hn : insideAt t.lines n = true) : n < t.lines.length := by
  by_cases hlt : n < t.lines.length
  · exact hlt
  · have hend := (Balance.stateAt_of_length_le (Nat.le_of_not_lt hlt)).trans
      (Balance.check_eq_ok_iff.1 h)
    rw [Balance.insideAt_of_stateAt hend] at hn
    cases hn

/-- **Documentation is excluded exactly when the count agrees with the scan.** Let the structure
scan of a well-structured text leave line `i` inside a docstring. The line is excluded if and only
if the delimiters counted up to its end and those read by the scan have the same parity, or it lies
strictly inside a literal assigned to a variable. -/
theorem documentation_excluded_iff {t : Text} (h : Balance.check t = .ok ()) {i : Nat}
    (hout : insideAt t.lines (i + 1) = true) :
    (ofLines false t.lines).excluded i = true ↔
      delimitersBefore t.lines (i + 1) % 2 = readBefore t.lines (i + 1) % 2 ∨
        (ofLines false t.lines).inLiteral i = true := by
  have hlt : i + 1 < t.lines.length := lt_length_of_insideAt h hout
  obtain ⟨s, hs⟩ := Balance.exists_stateAt_of_le (Nat.le_of_lt hlt) (Balance.check_eq_ok_iff.1 h)
  have hread : readBefore t.lines (i + 1) % 2 = 1 := by
    have := Balance.insideAt_eq_odd (Nat.le_of_lt hlt) hs
    rw [hout] at this
    simpa using this.symm
  rw [excluded_eq, inDoc_eq_inDocAt false (Nat.lt_of_succ_lt hlt), hread]
  simp only [inDocAt, Bool.not_false, Bool.true_and, Bool.or_eq_true, beq_iff_eq]
  exact Or.comm

/-- A docstring in whose text every delimiter is read. -/
theorem documentation_excluded_plain :
    Balance.check "\"\"\"\ndoc\n\"\"\"\n" = .ok () ∧
    insideAt (Text.lines "\"\"\"\ndoc\n\"\"\"\n") 2 = true ∧
    (ofLines false (Text.lines "\"\"\"\ndoc\n\"\"\"\n")).excluded 1 = true := by
  have h : Balance.check "\"\"\"\ndoc\n\"\"\"\n" = .ok () := by decide +kernel
  have hout : insideAt (Text.lines "\"\"\"\ndoc\n\"\"\"\n") (1 + 1) = true := by decide +kernel
  exact ⟨h, hout, (documentation_excluded_iff h hout).2 (.inl (by decide +kernel))⟩

/-- A delimiter in a comment: the scan is inside the docstring on both sides of line 2, and the
line is not excluded. -/
theorem documentation_not_excluded_behind_comment :
    Balance.check "# \"\"\"\n\"\"\"\ndoc\n\"\"\"\n" = .ok () ∧
    insideAt (Text.lines "# \"\"\"\n\"\"\"\ndoc\n\"\"\"\n") 2 = true ∧
    insideAt (Text.lines "# \"\"\"\n\"\"\"\ndoc\n\"\"\"\n") 3 = true ∧
    (ofLines false (Text.lines "# \"\"\"\n\"\"\"\ndoc\n\"\"\"\n")).excluded 2 = false := by
  decide +kernel

end MojoLint.Exclusion
