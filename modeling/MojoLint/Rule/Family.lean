import MojoLint.Rule.Docs
import MojoLint.Rule.Errors
import MojoLint.Rule.Gpu
import MojoLint.Rule.Imports
import MojoLint.Rule.Memory
import MojoLint.Rule.Performance
import MojoLint.Rule.Structs
import MojoLint.Rule.Variables

/-!
# Families of rules

The rules come in eight families. Each looks at a source file on its own.
-/

namespace MojoLint.Rule

/-- A family of rules. -/
inductive Family where
  | imports
  | structs
  | variables
  | gpu
  | docs
  | errors
  | performance
  | memory
deriving DecidableEq

namespace Family

/-- All families in the order in which they report. -/
def all : List Family :=
  [.imports, .structs, .variables, .gpu, .docs, .errors, .performance, .memory]

/-- The findings of a family in the order in which it makes them. -/
def findings : Family → Source → List Finding
  | .imports => Imports.findings
  | .structs => Structs.findings
  | .variables => Variables.findings
  | .gpu => Gpu.findings
  | .docs => Docs.findings
  | .errors => Errors.findings
  | .performance => Performance.findings
  | .memory => Memory.findings

end Family

end MojoLint.Rule
