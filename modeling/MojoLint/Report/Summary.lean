import MojoLint.Number.Binary64
import MojoLint.Report.Basic

/-!
# Summaries

The counts of several reports together and their average score.
-/

namespace MojoLint

/-- What several reports amount to. -/
structure Summary where
  files : Nat
  findings : Nat
  errors : Nat
  warnings : Nat
  suggestions : Nat
  observations : Nat
  average : Number.Binary64
deriving DecidableEq

namespace Summary

/-- The number of findings of a severity in all reports. -/
def total (reports : List Report) (s : Severity) : Nat :=
  (reports.flatMap Report.findings).countP fun f => f.severity = s

/-- The average score, which is 100 when there is no report. -/
def averageOf (reports : List Report) : Number.Binary64 :=
  if reports.isEmpty then .ofNat 100
  else .ofRatio (reports.foldl (fun scores r => scores + r.score) 0) reports.length

/-- The summary of the reports. -/
def ofReports (reports : List Report) : Summary where
  files := reports.length
  findings := (reports.flatMap Report.findings).length
  errors := total reports .error
  warnings := total reports .warning
  suggestions := total reports .suggestion
  observations := total reports .observation
  average := averageOf reports

end Summary

end MojoLint
