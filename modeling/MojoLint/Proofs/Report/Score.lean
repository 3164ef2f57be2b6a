import Mathlib.Data.List.Perm.Basic
import MojoLint.Report.Summary

/-!
# The score of a report

A report is built by adding findings, grading it and marking it as unreadable, in any order and any
number of times. `Scored` is what each of these steps keeps, so it holds after every run
(`Scored.after`). What a run has added and whether it has failed can be counted off its steps, and
grading reads nothing else (`deserved_after`), so their order makes no difference.

Two runs that differ in one step are compared by `NoBetter`, which every further step keeps.
-/

namespace MojoLint.Report

/-- One thing that is done to a report. -/
inductive Step where
  | add (f : Finding)
  | grade
  | fail (reason : Text)

/-- The report after a step. -/
def Step.apply (r : Report) : Step → Report
  | .add f => r.add f
  | .grade => r.grade
  | .fail reason => r.fail reason

/-- The report after steps. -/
def after (r : Report) (steps : List Step) : Report := steps.foldl Step.apply r

theorem after_append (r : Report) (xs ys : List Step) :
    r.after (xs ++ ys) = (r.after xs).after ys := List.foldl_append

theorem after_cons (r : Report) (x : Step) (xs : List Step) :
    r.after (x :: xs) = (x.apply r).after xs := List.foldl_cons ..

/-- Whether a step adds a finding of a severity. -/
def Step.adds (s : Severity) : Step → Bool
  | .add f => f.severity = s
  | _ => false

/-- Whether a step marks the report as unreadable. -/
def Step.fails : Step → Bool
  | .fail _ => true
  | _ => false

/-! ## What the score is taken off for -/

/-- The points that the findings take away. -/
def cost (r : Report) : Nat := 10 * r.count .error + 5 * r.count .warning

theorem count_add (r : Report) (f : Finding) (s : Severity) :
    (r.add f).count s = r.count s + if f.severity = s then 1 else 0 := by
  simp [count, add, List.countP_append, List.countP_cons]

theorem deserved_eq {r : Report} (h : r.unreadable = false) :
    r.deserved = if r.lineCount = 0 then 100 else 100 - r.cost := by
  simp [deserved, h, cost]

theorem deserved_of_unreadable {r : Report} (h : r.unreadable = true) : r.deserved = 0 := by
  simp [deserved, h]

/-! ## One step, and a run -/

/-- What is true of the score of every report: it is a multiple of 5 up to 100, it is 0 when the file
could not be read, and grading never raises it. -/
structure Scored (r : Report) : Prop where
  le_hundred : r.score ≤ 100
  five_dvd : 5 ∣ r.score
  of_unreadable : r.unreadable = true → r.score = 0
  deserved_le : r.deserved ≤ r.score

theorem five_dvd_deserved (r : Report) : 5 ∣ r.deserved := by
  cases h : r.unreadable with
  | true => simp [deserved_of_unreadable h]
  | false =>
    rw [deserved_eq h, cost]
    split <;> omega

theorem deserved_le_hundred (r : Report) : r.deserved ≤ 100 := by
  cases h : r.unreadable with
  | true => simp [deserved_of_unreadable h]
  | false =>
    rw [deserved_eq h]
    split <;> omega

theorem scored_start (file : Text) (n : Nat) : Scored (start file n) where
  le_hundred := Nat.le_refl _
  five_dvd := ⟨20, rfl⟩
  of_unreadable := nofun
  deserved_le := deserved_le_hundred _

theorem deserved_add_le (r : Report) (f : Finding) : (r.add f).deserved ≤ r.deserved := by
  cases h : r.unreadable with
  | true =>
    rw [deserved_of_unreadable (r := r.add f) h]
    exact Nat.zero_le _
  | false =>
    rw [deserved_eq h, deserved_eq (r := r.add f) h]
    change (if r.lineCount = 0 then 100 else 100 - (r.add f).cost) ≤ _
    simp only [cost, count_add]
    split <;> omega

theorem Scored.apply {r : Report} (h : Scored r) (x : Step) : Scored (x.apply r) := by
  cases x with
  | add f =>
    refine ⟨h.le_hundred, h.five_dvd, h.of_unreadable, ?_⟩
    exact Nat.le_trans (deserved_add_le r f) h.deserved_le
  | grade =>
    refine ⟨r.deserved_le_hundred, r.five_dvd_deserved, ?_, Nat.le_refl _⟩
    exact fun hunreadable => deserved_of_unreadable (r := r) hunreadable
  | fail reason =>
    refine ⟨Nat.zero_le _, Nat.dvd_zero 5, fun _ => rfl, ?_⟩
    exact Nat.le_of_eq (deserved_of_unreadable rfl)

theorem Scored.after {r : Report} (h : Scored r) (steps : List Step) : Scored (r.after steps) := by
  induction steps generalizing r with
  | nil => exact h
  | cons x steps ih =>
    rw [after_cons]
    exact ih (h.apply x)

/-! ## What a run leaves behind -/

theorem lineCount_after (r : Report) (steps : List Step) :
    (r.after steps).lineCount = r.lineCount := by
  induction steps generalizing r with
  | nil => rfl
  | cons x steps ih =>
    rw [after_cons, ih]
    cases x <;> rfl

theorem unreadable_after (r : Report) (steps : List Step) :
    (r.after steps).unreadable = (r.unreadable || steps.any Step.fails) := by
  induction steps generalizing r with
  | nil => simp [after]
  | cons x steps ih =>
    rw [after_cons, ih]
    cases x <;> simp [Step.apply, Step.fails, add, grade, fail]

theorem count_after {steps : List Step} (h : steps.any Step.fails = false) (r : Report)
    (s : Severity) : (r.after steps).count s = r.count s + steps.countP (Step.adds s) := by
  induction steps generalizing r with
  | nil => rfl
  | cons x steps ih =>
    rw [List.any_cons, Bool.or_eq_false_iff] at h
    rw [after_cons, ih h.2]
    cases x with
    | add f =>
      simp only [Step.apply, Step.adds, count_add, List.countP_cons, decide_eq_true_eq]
      omega
    | grade => simp [Step.apply, Step.adds, grade, count]
    | fail reason => cases h.1

/-- **What a run deserves can be counted off its steps.** -/
theorem deserved_after (file : Text) (n : Nat) (steps : List Step) :
    ((start file n).after steps).deserved =
      if steps.any Step.fails then 0
      else if n = 0 then 100
      else 100 - (10 * steps.countP (Step.adds .error) + 5 * steps.countP (Step.adds .warning)) := by
  have hunreadable := unreadable_after (start file n) steps
  rw [start, Bool.false_or, ← start] at hunreadable
  cases h : steps.any Step.fails with
  | true => exact deserved_of_unreadable (hunreadable.trans h)
  | false =>
    rw [deserved_eq (hunreadable.trans h), lineCount_after, cost, count_after h, count_after h]
    simp [start, count]

/-! ## Two runs -/

/-- The first report scores no better than the second, and will not after whatever is done to both:
its findings take at least as much away. -/
structure NoBetter (r r' : Report) : Prop where
  lineCount : r.lineCount = r'.lineCount
  unreadable : r.unreadable = r'.unreadable
  cost : r'.cost ≤ r.cost
  score : r.score ≤ r'.score

namespace NoBetter

variable {r r' : Report} (h : NoBetter r r')

include h

theorem deserved : r.deserved ≤ r'.deserved := by
  have hcost := h.cost
  cases hunreadable : r.unreadable with
  | true =>
    rw [deserved_of_unreadable hunreadable]
    exact Nat.zero_le _
  | false =>
    rw [deserved_eq hunreadable, deserved_eq (h.unreadable.symm.trans hunreadable), h.lineCount]
    split <;> omega

theorem add (f : Finding) : (r'.add f).cost ≤ (r.add f).cost := by
  have hcost := h.cost
  simp only [Report.cost, count_add] at hcost ⊢
  omega

theorem apply (x : Step) : NoBetter (x.apply r) (x.apply r') := by
  cases x with
  | add f => exact ⟨h.lineCount, h.unreadable, h.add f, h.score⟩
  | grade => exact ⟨h.lineCount, h.unreadable, h.cost, h.deserved⟩
  | fail reason =>
    refine ⟨h.lineCount, rfl, ?_, Nat.le_refl _⟩
    have hcost := h.cost
    change ((r'.add (accessFinding r'.file reason)).cost ≤ (r.add (accessFinding r.file reason)).cost)
    simp only [Report.cost, count_add, accessFinding, Finding.onLine] at hcost ⊢
    omega

theorem after (steps : List Step) : NoBetter (r.after steps) (r'.after steps) := by
  induction steps generalizing r r' with
  | nil => exact h
  | cons x steps ih =>
    rw [after_cons, after_cons]
    exact ih (h.apply x)

end NoBetter

theorem noBetter_add (r : Report) (f : Finding) : NoBetter (r.add f) r where
  lineCount := rfl
  unreadable := rfl
  cost := by
    simp only [cost, count_add]
    omega
  score := Nat.le_refl _

theorem noBetter_of_light (r : Report) {f : Finding}
    (h : f.severity = .suggestion ∨ f.severity = .observation) : NoBetter r (r.add f) where
  lineCount := rfl
  unreadable := rfl
  cost := by
    rcases h with h | h <;> simp [cost, count_add, h]
  score := Nat.le_refl _

theorem noBetter_error_warning (r : Report) {f g : Finding} (hf : f.severity = .error)
    (hg : g.severity = .warning) : NoBetter (r.add f) (r.add g) where
  lineCount := rfl
  unreadable := rfl
  cost := by
    simp only [cost, count_add, hf, hg, reduceCtorEq, if_true, if_false]
    omega
  score := Nat.le_refl _

/-! ## The laws of the score -/

/-- The report on a file of `n` lines after steps. -/
def built (file : Text) (n : Nat) (steps : List Step) : Report := (start file n).after steps

theorem score_concat_grade (file : Text) (n : Nat) (steps : List Step) :
    (built file n (steps ++ [.grade])).score = (built file n steps).deserved := by
  rw [built, after_append]
  rfl

/-- A step put into a run makes the score no better when it makes the report no better. -/
theorem score_insert_le {x : Step} (h : ∀ r, NoBetter (x.apply r) r) (file : Text) (n : Nat)
    (xs ys : List Step) :
    (built file n (xs ++ x :: ys)).score ≤ (built file n (xs ++ ys)).score := by
  rw [built, built, after_append, after_append, after_cons]
  exact ((h _).after ys).score

theorem score_insert_ge {x : Step} (h : ∀ r, NoBetter r (x.apply r)) (file : Text) (n : Nat)
    (xs ys : List Step) :
    (built file n (xs ++ ys)).score ≤ (built file n (xs ++ x :: ys)).score := by
  rw [built, built, after_append, after_append, after_cons]
  exact ((h _).after ys).score

/-- The laws of the score of a report on a file of `n` lines, over every run of steps. -/
structure ScoreLaws (file : Text) (n : Nat) : Prop where
  /-- The score is a multiple of 5 between 0 and 100. -/
  bounded : ∀ steps, 5 ∣ (built file n steps).score ∧ (built file n steps).score ≤ 100
  /-- It is 0 from a failure on. -/
  failed : ∀ xs reason ys, (built file n (xs ++ .fail reason :: ys)).score = 0
  /-- Without a failure, grading gives 100 to an empty file, and to any other what errors and
  warnings leave of it. -/
  graded : ∀ steps, steps.any Step.fails = false →
    ((built file n (steps ++ [.grade])).score : Int) =
      if n = 0 then 100
      else max 0 (100 - 10 * (steps.countP (Step.adds .error) : Int) -
        5 * (steps.countP (Step.adds .warning) : Int))
  /-- The order of the steps before a grading makes no difference to it. -/
  orderless : ∀ steps steps', steps.Perm steps' →
    (built file n (steps ++ [.grade])).score = (built file n (steps' ++ [.grade])).score
  /-- A finding never raises the score, whatever follows it. -/
  added : ∀ xs f ys, (built file n (xs ++ .add f :: ys)).score ≤ (built file n (xs ++ ys)).score
  /-- Grading after a finding was added never raises it either. -/
  regraded : ∀ xs f, (built file n (xs ++ [.add f, .grade])).score ≤ (built file n xs).score
  /-- An error never leaves it higher than a warning in its place would. -/
  heavier : ∀ xs f g ys, f.severity = .error → g.severity = .warning →
    (built file n (xs ++ .add f :: ys)).score ≤ (built file n (xs ++ .add g :: ys)).score
  /-- Suggestions and observations never change it. -/
  unchanged : ∀ xs f ys, f.severity = .suggestion ∨ f.severity = .observation →
    (built file n (xs ++ .add f :: ys)).score = (built file n (xs ++ ys)).score

theorem scoreLaws (file : Text) (n : Nat) : ScoreLaws file n where
  bounded steps := by
    have h := (scored_start file n).after steps
    exact ⟨h.five_dvd, h.le_hundred⟩
  failed xs reason ys := by
    apply ((scored_start file n).after _).of_unreadable
    simp [unreadable_after, Step.fails]
  graded steps h := by
    rw [score_concat_grade, built, deserved_after, h, if_neg (by decide)]
    split
    · rfl
    · omega
  orderless steps steps' h := by
    rw [score_concat_grade, score_concat_grade, built, built, deserved_after, deserved_after,
      h.any_eq, h.countP_eq, h.countP_eq]
  added xs f ys := score_insert_le (x := .add f) (fun r => noBetter_add r f) file n xs ys
  regraded xs f := by
    rw [built, after_append]
    have h := ((scored_start file n).after xs).apply (.add f)
    exact h.deserved_le
  heavier xs f g ys hf hg := by
    rw [built, built, after_append, after_append, after_cons, after_cons]
    exact ((noBetter_error_warning _ hf hg).after ys).score
  unchanged xs f ys h :=
    Nat.le_antisymm (score_insert_le (x := .add f) (fun r => noBetter_add r f) file n xs ys)
      (score_insert_ge (x := .add f) (fun r => noBetter_of_light r h) file n xs ys)

end MojoLint.Report

namespace MojoLint.Summary

/-! ## Summaries -/

/-- Every finding has one of the four severities. -/
theorem length_eq_countP_severity (fs : List Finding) :
    fs.length = fs.countP (·.severity = .error) + fs.countP (·.severity = .warning) +
      fs.countP (·.severity = .suggestion) + fs.countP (·.severity = .observation) := by
  induction fs with
  | nil => rfl
  | cons f fs ih =>
    simp only [List.length_cons, List.countP_cons, ih]
    cases f.severity <;> simp only [reduceCtorEq, decide_true, decide_false, if_true,
      Bool.false_eq_true, if_false] <;> omega

/-- The counts of a summary are those of another two added up. -/
structure IsSum (s a b : Summary) : Prop where
  files : s.files = a.files + b.files
  findings : s.findings = a.findings + b.findings
  errors : s.errors = a.errors + b.errors
  warnings : s.warnings = a.warnings + b.warnings
  suggestions : s.suggestions = a.suggestions + b.suggestions
  observations : s.observations = a.observations + b.observations

theorem isSum_append (xs ys : List Report) :
    IsSum (ofReports (xs ++ ys)) (ofReports xs) (ofReports ys) := by
  constructor <;> simp [ofReports, total]

theorem findings_eq (xs : List Report) :
    (ofReports xs).findings = (ofReports xs).errors + (ofReports xs).warnings +
      (ofReports xs).suggestions + (ofReports xs).observations :=
  length_eq_countP_severity (xs.flatMap Report.findings)

/-- **Scores and summaries.** Over every run of steps the score obeys its laws, the counts of a
summary add up over concatenation, and every finding is counted under its severity. -/
theorem score_and_summary :
    (∀ file n, Report.ScoreLaws file n) ∧
      (∀ xs ys, IsSum (ofReports (xs ++ ys)) (ofReports xs) (ofReports ys)) ∧
      ∀ xs, (ofReports xs).findings = (ofReports xs).errors + (ofReports xs).warnings +
        (ofReports xs).suggestions + (ofReports xs).observations :=
  ⟨Report.scoreLaws, isSum_append, findings_eq⟩

/-- A file of three lines with an error and a warning, which then cannot be read any more. -/
theorem score_and_summary_of_failing_run :
    let at0 := fun severity => Finding.onLine "X" .performance severity "a" 0 "" "" []
    (((Report.built "a" 3 ([.add (at0 .error), .add (at0 .warning)] ++ [.grade])).score : Int) = 85) ∧
      (Report.built "a" 3 ([.add (at0 .error)] ++ .fail "gone" :: [.grade])).score = 0 ∧
      (Report.built "a" 3 ([] ++ .add (at0 .error) :: [.grade])).score ≤
        (Report.built "a" 3 ([] ++ .add (at0 .warning) :: [.grade])).score ∧
      (Report.built "a" 3 ([.grade] ++ .add (at0 .observation) :: [.grade])).score =
        (Report.built "a" 3 ([.grade] ++ [.grade])).score := by
  intro at0
  have h := score_and_summary.1 "a" 3
  refine ⟨?_, h.failed _ _ _, h.heavier _ _ _ _ rfl rfl, h.unchanged _ _ _ (.inr rfl)⟩
  rw [h.graded _ rfl]
  decide

end MojoLint.Summary
