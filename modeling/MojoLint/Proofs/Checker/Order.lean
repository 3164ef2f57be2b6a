import MojoLint.Checker

/-!
# The order of a report

A check filters the findings before it sorts them, so a report with observations and one without
come from sorting two different lists. Sorting by line leaves alone what is on one line
(`filter_line_byLine`), and a list in the order of its lines is determined by what it holds on each
of them (`eq_of_filter_line`). So it makes no difference whether a filter runs before the sort or
behind it (`filter_byLine`).
-/

namespace MojoLint.Checker

/-- The findings are in the order of their lines. -/
def InOrder (fs : List Finding) : Prop := fs.Pairwise fun a b => a.line ≤ b.line

theorem le_line_trans (a b c : Finding) (hab : decide (a.line ≤ b.line) = true)
    (hbc : decide (b.line ≤ c.line) = true) : decide (a.line ≤ c.line) = true := by
  rw [decide_eq_true_eq] at hab hbc ⊢
  exact UInt32.le_trans hab hbc

theorem le_line_total (a b : Finding) :
    (decide (a.line ≤ b.line) || decide (b.line ≤ a.line)) = true := by
  rw [Bool.or_eq_true, decide_eq_true_eq, decide_eq_true_eq]
  exact UInt32.le_total a.line b.line

theorem inOrder_byLine (fs : List Finding) : InOrder (byLine fs) := by
  have hsorted := List.pairwise_mergeSort le_line_trans le_line_total fs
  apply hsorted.imp
  intro a b hab
  exact of_decide_eq_true hab

/-- Findings on one line stay in their order. -/
theorem filter_line_byLine (fs : List Finding) (n : UInt32) :
    (byLine fs).filter (·.line == n) = fs.filter (·.line == n) := by
  -- what is on one line is in order, so the sort keeps it, and it adds nothing to it
  have hpair : (fs.filter (·.line == n)).Pairwise fun a b => decide (a.line ≤ b.line) = true := by
    rw [List.pairwise_iff_forall_sublist]
    intro a b hab
    have ha := (List.mem_filter.1 (hab.subset List.mem_cons_self)).2
    have hb := (List.mem_filter.1 (hab.subset (List.mem_cons_of_mem _ List.mem_cons_self))).2
    rw [beq_iff_eq] at ha hb
    rw [ha, hb, decide_eq_true_eq]
    exact UInt32.le_refl n
  have hkept : List.Sublist (fs.filter (·.line == n)) (byLine fs) :=
    List.sublist_mergeSort le_line_trans le_line_total hpair List.filter_sublist
  have hsub := hkept.filter (·.line == n)
  rw [List.filter_filter] at hsub
  simp only [Bool.and_self] at hsub
  symm
  apply hsub.eq_of_length
  rw [← List.countP_eq_length_filter, ← List.countP_eq_length_filter]
  exact ((List.mergeSort_perm fs _).countP_eq _).symm

/-- The first finding of a list in order is on the first line that has any. -/
theorem line_le_of_mem {f g : Finding} {fs : List Finding} (h : InOrder (f :: fs))
    (hg : g ∈ f :: fs) : f.line ≤ g.line := by
  rcases List.mem_cons.1 hg with rfl | hg
  · exact UInt32.le_refl _
  · exact (List.pairwise_cons.1 h).1 g hg

theorem mem_of_filter_line {fs gs : List Finding}
    (h : ∀ n, fs.filter (·.line == n) = gs.filter (·.line == n)) (g : Finding) (hg : g ∈ gs) :
    g ∈ fs := by
  have hline : g ∈ gs.filter (·.line == g.line) := List.mem_filter.2 ⟨hg, beq_self_eq_true _⟩
  rw [← h] at hline
  exact (List.mem_filter.1 hline).1

/-- **A list in order is determined by what it holds on each line.** -/
theorem eq_of_filter_line {fs gs : List Finding} (hfs : InOrder fs) (hgs : InOrder gs)
    (h : ∀ n, fs.filter (·.line == n) = gs.filter (·.line == n)) : fs = gs := by
  induction fs generalizing gs with
  | nil =>
    cases gs with
    | nil => rfl
    | cons g gs => exact absurd (mem_of_filter_line h g List.mem_cons_self) List.not_mem_nil
  | cons f fs ih =>
    have h' : ∀ n, gs.filter (·.line == n) = (f :: fs).filter (·.line == n) := fun n => (h n).symm
    cases gs with
    | nil => exact absurd (mem_of_filter_line h' f List.mem_cons_self) List.not_mem_nil
    | cons g gs =>
      have hline : f.line = g.line := by
        apply UInt32.le_antisymm
        · exact line_le_of_mem hfs (mem_of_filter_line h g List.mem_cons_self)
        · exact line_le_of_mem hgs (mem_of_filter_line h' f List.mem_cons_self)
      have hfirst := h g.line
      rw [List.filter_cons_of_pos (by simp [hline]), List.filter_cons_of_pos (by simp)] at hfirst
      obtain ⟨rfl, -⟩ := List.cons.inj hfirst
      congr 1
      apply ih hfs.tail hgs.tail
      intro n
      have hn := h n
      rw [List.filter_cons, List.filter_cons] at hn
      split at hn
      · exact (List.cons.inj hn).2
      · exact hn

/-- Sorting commutes with filtering. -/
theorem filter_byLine (p : Finding → Bool) (fs : List Finding) :
    (byLine fs).filter p = byLine (fs.filter p) := by
  apply eq_of_filter_line ((inOrder_byLine fs).filter p) (inOrder_byLine _)
  intro n
  rw [filter_line_byLine, List.filter_filter, List.filter_filter]
  simp only [Bool.and_comm _ (p _)]
  rw [← List.filter_filter, ← List.filter_filter, filter_line_byLine]

/-! ## What the score depends on -/

theorem findings_check (o : Options) (path text : Text) :
    (check o path text).findings =
      byLine ((allFindings (Source.ofText path text o.checkDocs)).filter (keeps o)) := rfl

/-- Filtering out what is neither an error nor a warning leaves the score as it was. -/
theorem deserved_filter {r : Report} {p : Finding → Bool}
    (hp : ∀ f, p f = false → f.severity ≠ .error ∧ f.severity ≠ .warning) :
    { r with findings := r.findings.filter p }.deserved = r.deserved := by
  have hcount : ∀ s, (s = .error ∨ s = .warning) →
      { r with findings := r.findings.filter p }.count s = r.count s := by
    intro s hs
    unfold Report.count
    rw [List.countP_filter]
    apply List.countP_congr
    intro f _
    cases hf : p f with
    | true => simp
    | false =>
      obtain ⟨herror, hwarning⟩ := hp f hf
      rcases hs with rfl | rfl
      · simp [herror]
      · simp [hwarning]
  unfold Report.deserved
  rw [hcount .error (.inl rfl), hcount .warning (.inr rfl)]

/-- **Observations are only ever filtered.** A report without them is the one with them less the
observations, and scores the same. Both are in the order of their lines, and what is on one line is
in the order in which the families made it. -/
theorem observations_only_filtered (o : Options) (path text : Text) :
    let shown := check { o with showObservations := true } path text
    let hidden := check { o with showObservations := false } path text
    hidden.findings = shown.findings.filter (fun f => f.severity != .observation) ∧
      hidden.score = shown.score ∧
      ∀ b, let report := check { o with showObservations := b } path text
        report.findings.Pairwise (fun f g => f.line ≤ g.line) ∧
        ∀ n, report.findings.filter (·.line == n) =
          Rule.Family.all.flatMap fun family =>
            (family.findings (Source.ofText path text o.checkDocs)).filter fun f =>
              f.line == n && (b || f.severity != .observation) := by
  intro shown hidden
  have hall : (allFindings (Source.ofText path text o.checkDocs)).filter
      (keeps { o with showObservations := true }) =
        allFindings (Source.ofText path text o.checkDocs) := by
    apply List.filter_eq_self.2
    intro f _
    rfl
  have hfindings : hidden.findings =
      shown.findings.filter (fun f => f.severity != .observation) := by
    rw [findings_check, findings_check, filter_byLine, hall]
    rfl
  refine ⟨hfindings, ?_, ?_⟩
  · have hscore := deserved_filter (r := shown) (p := fun f => f.severity != .observation) (by
      intro f hf
      have hobservation : f.severity = .observation := by simpa using hf
      rw [hobservation]
      exact ⟨nofun, nofun⟩)
    rw [← hfindings] at hscore
    exact hscore
  · intro b report
    refine ⟨inOrder_byLine _, ?_⟩
    intro n
    rw [findings_check, filter_line_byLine, List.filter_filter, allFindings, List.filter_flatMap]
    rfl

end MojoLint.Checker
