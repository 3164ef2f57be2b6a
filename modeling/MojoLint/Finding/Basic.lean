import MojoLint.Edit.Basic

/-!
# Findings

A finding is one thing a rule has to say about one line of a file, with the edits that would
settle it.
-/

namespace MojoLint

/-- How much a finding weighs. -/
inductive Severity where
  | error
  | warning
  | suggestion
  | observation
deriving DecidableEq

/-- The word a report uses for a severity. -/
def Severity.name : Severity → Text
  | .error => "error"
  | .warning => "warning"
  | .suggestion => "suggestion"
  | .observation => "observation"

/-- What a finding is about. -/
inductive Category where
  | importPattern
  | structPattern
  | variableDeclaration
  | gpuPattern
  | documentation
  | errorHandling
  | performance
  | memoryManagement
  | traitUsage
  | fileAccess
deriving DecidableEq

/-- The words a report uses for a category. -/
def Category.name : Category → Text
  | .importPattern => "import pattern"
  | .structPattern => "struct pattern"
  | .variableDeclaration => "variable declaration"
  | .gpuPattern => "GPU pattern"
  | .documentation => "documentation"
  | .errorHandling => "error handling"
  | .performance => "performance"
  | .memoryManagement => "memory management"
  | .traitUsage => "trait usage"
  | .fileAccess => "file access"

/-- One thing that a rule reports. -/
structure Finding where
  /-- The name of the rule. -/
  id : Text
  category : Category
  severity : Severity
  file : Text
  /-- The line, counted from 1. -/
  line : UInt32
  description : Text
  suggestion : Text
  edits : List Edit
deriving DecidableEq

/-- A finding on the line with the number `line`, counted from 0. The reported number is a 32-bit
word and wraps. -/
def Finding.onLine (id : Text) (category : Category) (severity : Severity) (file : Text)
    (line : Nat) (description suggestion : Text) (edits : List Edit) : Finding :=
  { id, category, severity, file, line := line.toUInt32 + 1, description, suggestion, edits }

end MojoLint
