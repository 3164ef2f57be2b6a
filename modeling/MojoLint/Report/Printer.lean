import MojoLint.Report.Summary

/-!
# Printed reports

Reports are printed as a summary followed by the findings: one line for each in the brief style,
and in the detailed style a block for each file with suggestions and edits.
-/

namespace MojoLint

/-- How much a printed report says. -/
inductive Style where
  | brief
  | detailed
deriving DecidableEq

/-- The summary block. -/
def Summary.print (s : Summary) : Text :=
  "== Mojo compliance summary ==\n" ++
  "  files:         " ++ Text.ofNat s.files ++ "\n" ++
  "  violations:    " ++ Text.ofNat s.findings ++ "\n" ++
  "  errors:        " ++ Text.ofNat s.errors ++ "\n" ++
  "  warnings:      " ++ Text.ofNat s.warnings ++ "\n" ++
  "  suggestions:   " ++ Text.ofNat s.suggestions ++ "\n" ++
  "  observations:  " ++ Text.ofNat s.observations ++ "\n" ++
  "  average score: " ++ s.average.toText ++ "\n"

/-- The place of an edit in its file. -/
def Edit.place (e : Edit) : Text :=
  "(offset " ++ Text.ofNat e.offset.toNat ++ ", len " ++ Text.ofNat e.length.toNat ++ ")"

/-- A finding on one line. -/
def Finding.headline (f : Finding) : Text :=
  f.file ++ ":" ++ Text.ofNat f.line.toNat ++ ": " ++ f.severity.name ++ " [" ++ f.id ++ "] (" ++
    f.category.name ++ ") " ++ f.description ++ "\n"

/-- The line about an edit. -/
def Edit.print (e : Edit) : Text := "    fix: " ++ e.note ++ " " ++ e.place ++ "\n"

/-- The line about a suggestion. An empty one has none. -/
def suggestionLine : Text → Text
  | [] => []
  | suggestion => "    suggestion: " ++ suggestion ++ "\n"

/-- What to do about a finding: the suggestion and the edits. -/
def Finding.advice (f : Finding) : Text :=
  suggestionLine f.suggestion ++ f.edits.flatMap Edit.print

/-- A finding with what to do about it. -/
def Finding.print (f : Finding) : Text := "  " ++ f.headline ++ f.advice

namespace Report

/-- The findings of a report, a line each. -/
def printBrief (r : Report) : Text := r.findings.flatMap Finding.headline

/-- The block of a report in the detailed style. -/
def printDetailed (r : Report) : Text :=
  "\n-- " ++ r.file ++ " --\n" ++
  "  lines: " ++ Text.ofNat r.lineCount ++
  "  score: " ++ (Number.Binary64.ofNat r.score).toText ++
  "  errors: " ++ Text.ofNat (r.count .error) ++
  "  warnings: " ++ Text.ofNat (r.count .warning) ++
  "  suggestions: " ++ Text.ofNat (r.count .suggestion) ++
  "  observations: " ++ Text.ofNat (r.count .observation) ++ "\n" ++
  match r.findings with
  | [] => "  no violations\n"
  | findings => findings.flatMap Finding.print

/-- All reports in a style, after their summary. -/
def printAll (style : Style) (reports : List Report) : Text :=
  (Summary.ofReports reports).print ++
    match style with
    | .brief => (if reports.isEmpty then ([] : Text) else "\n") ++ reports.flatMap printBrief
    | .detailed => reports.flatMap printDetailed

end Report

end MojoLint
