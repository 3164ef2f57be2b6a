import MojoLint.Report.Basic
import MojoLint.Rule.Family

/-!
# Checking a source file

All families of rules look at a file, their findings are put in the order of their lines, and the
report is graded. Findings on one line stay in the order in which the families made them, and
observations are left out unless they are asked for.
-/

namespace MojoLint

/-- What a check looks at and what it reports. -/
structure Checker.Options where
  showObservations : Bool
  /-- Code inside documentation blocks is checked as well. -/
  checkDocs : Bool
  /-- The names of directories that a scan does not enter. -/
  excludedDirs : List Text
  /-- The extensions of source files. -/
  extensions : List Text

/-- The options of a check without any flag. -/
def Checker.Options.standard : Checker.Options where
  showObservations := false
  checkDocs := false
  excludedDirs :=
    [".git", ".hg", ".svn", "__pycache__", ".pixi", ".magic", ".venv", "venv",
     "node_modules", "build", "dist", ".mojo_cache"]
  extensions := [".mojo", ".🔥"]

namespace Checker

/-- Everything the rules have to say about a file, family by family. -/
def allFindings (s : Source) : List Finding := Rule.Family.all.flatMap (·.findings s)

/-- Whether the options keep a finding. -/
def keeps (o : Options) (f : Finding) : Bool := o.showObservations || f.severity != .observation

/-- The findings in the order of their lines. -/
def byLine (fs : List Finding) : List Finding := fs.mergeSort fun a b => a.line ≤ b.line

/-- The report on the file at `path` with the given text. -/
def check (o : Options) (path text : Text) : Report :=
  let s := Source.ofText path text o.checkDocs
  ((Report.start path s.rows.length).addAll (byLine ((allFindings s).filter (keeps o)))).grade

end Checker

end MojoLint
