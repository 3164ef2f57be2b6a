import MojoLint.Finding.Basic

/-!
# Reports

A report holds the findings in one file and a score. The score starts at 100; `Report.grade`
derives it from the findings, taking 10 points for an error and 5 for a warning and never going
below 0. A file that cannot be read scores 0.
-/

namespace MojoLint

/-- The findings in one file and the score derived from them. -/
structure Report where
  file : Text
  lineCount : Nat
  findings : List Finding
  score : Nat
  /-- The file could not be read. -/
  unreadable : Bool
deriving DecidableEq

namespace Report

/-- The report on a file with `lineCount` lines before anything was found. -/
def start (file : Text) (lineCount : Nat) : Report := ⟨file, lineCount, [], 100, false⟩

/-- The report with one more finding. The score is left as it was. -/
def add (r : Report) (f : Finding) : Report := { r with findings := r.findings ++ [f] }

/-- The report with more findings. -/
def addAll (r : Report) (fs : List Finding) : Report := { r with findings := r.findings ++ fs }

/-- The finding that a file could not be read. -/
def accessFinding (file reason : Text) : Finding :=
  Finding.onLine "FILE_ACCESS" .fileAccess .error file 0 ("Cannot read file: " ++ reason)
    "Check that the file exists and is readable" []

/-- The report on a file that could not be read: one more error, and a score of 0 from here on. -/
def fail (r : Report) (reason : Text) : Report :=
  { r.add (accessFinding r.file reason) with score := 0, unreadable := true }

/-- The number of findings of a severity. -/
def count (r : Report) (s : Severity) : Nat := r.findings.countP fun f => f.severity = s

/-- The score that the findings deserve. -/
def deserved (r : Report) : Nat :=
  if r.unreadable then 0
  else if r.lineCount = 0 then 100
  else 100 - (10 * r.count .error + 5 * r.count .warning)

/-- The report with the score that its findings deserve. -/
def grade (r : Report) : Report := { r with score := r.deserved }

end Report

end MojoLint
