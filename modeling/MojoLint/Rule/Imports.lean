import MojoLint.Finding.Basic
import MojoLint.Source.Basic

/-!
# Import rules

Imports name packages absolutely, those of the standard library come first, and the platform
queries are imported under their current names.
-/

namespace MojoLint.Rule.Imports

/-- The modules of the standard library. -/
def standardModules : List Text :=
  ["algorithm", "benchmark", "bit", "buffer", "builtin", "collections", "compile",
   "complex", "gpu", "hashlib", "io", "logger", "math", "memory", "os", "pathlib",
   "python", "random", "runtime", "stat", "subprocess", "sys", "tempfile", "testing",
   "time", "utils"]

/-- The platform queries that were removed, each with the one to use instead. -/
def platformNames : List (Text × Text) :=
  [("has_nvidia_gpu", "has_nvidia_gpu_accelerator"),
   ("has_amd_gpu", "has_amd_gpu_accelerator"),
   ("has_gpu", "has_accelerator"),
   ("is_gpu_available", "has_accelerator")]

/-- What a line imports. -/
inductive Import where
  /-- A package given relative to the importing one; `tail` are the tokens behind `from`. -/
  | relative (tail : List Token)
  /-- A module of the standard library. -/
  | standard (root : Text)
  /-- A module of the project. -/
  | project

/-- Whether a token is made of the dots of a relative import. -/
def isDots (t : Token) : Bool := t.isPunct "." || t.isPunct "..."

/-- What a line with the given tokens imports, if it is an import. -/
def Import.ofTokens? : List Token → Option Import
  | keyword :: next :: rest =>
    if keyword.isIdent "from" && isDots next then some (.relative (next :: rest))
    else if (keyword.isIdent "from" || keyword.isIdent "import") && next.kind == .ident then
      some (if standardModules.contains next.text then .standard next.text else .project)
    else none
  | _ => none

/-- Whether an import is one of the project's own, given absolutely or relatively. -/
def Import.isLocal : Import → Bool
  | .standard _ => false
  | _ => true

/-- The first line of the file with an import of the project's own. -/
def firstLocal? (s : Source) : Option Nat :=
  (s.visible.find? fun (row, _) =>
    (Import.ofTokens? row.codeTokens).any Import.isLocal).map Prod.snd

/-- The finding for a relative import. Its edit deletes the dots, so that the module behind them
is imported by its absolute name; without a module there is nothing to import. -/
def relativeFinding (s : Source) (row : Row) (i : Nat) (tail : List Token) : Finding :=
  let dots := (tail.takeWhile isDots).flatMap Token.text
  let module :=
    ((tail.dropWhile isDots).takeWhile fun t => !t.isIdent "import").flatMap Token.text
  let column := (tail.head?.map Token.column).getD 0
  Finding.onLine "RELATIVE_IMPORT" .importPattern .error s.path i
    ("Relative import 'from " ++ dots ++ module ++ "' is not allowed")
    (if module.isEmpty then "Import the package by its absolute name"
     else "Use the absolute import 'from " ++ module ++ " import ...'")
    (if module.isEmpty then []
     else [⟨s.path, row.offset + column, dots.length.toUInt32, [], "Rewrite as absolute import"⟩])

/-- The finding for an import of the standard library behind the project import on line `first`. -/
def orderFinding (s : Source) (i : Nat) (root : Text) (first : Nat) : Finding :=
  Finding.onLine "STDLIB_IMPORT_ORDER" .importPattern .warning s.path i
    ("Standard library import '" ++ root ++ "' follows the project import on line " ++
      Text.ofNat (first + 1))
    "Group standard library imports before project imports" []

/-- The finding for a removed platform query. -/
def platformFinding (s : Source) (i : Nat) (retired current : Text) : Finding :=
  Finding.onLine "DEPRECATED_PLATFORM_IMPORT" .importPattern .error s.path i
    ("Platform detection name '" ++ retired ++ "' has been removed")
    ("Import '" ++ current ++ "' instead") []

/-- The findings for the removed platform queries that a line imports. -/
def platformFindings (s : Source) (i : Nat) (tokens : List Token) : List Finding :=
  (tokens.dropWhile fun t => !t.isIdent "import").filterMap fun t =>
    if t.kind == .ident then
      (platformNames.find? (·.1 == t.text)).map fun (retired, current) =>
        platformFinding s i retired current
    else none

/-- The findings on one line, where `first` is the first line with a project import. -/
def lineFindings (s : Source) (first : Option Nat) (row : Row) (i : Nat) : List Finding :=
  let tokens := row.codeTokens
  match Import.ofTokens? tokens with
  | some (.relative tail) => [relativeFinding s row i tail]
  | some (.standard root) =>
    let late := first.filter (· < i)
    let fromSys := root = "sys" && tokens.head?.any (·.isIdent "from")
    (late.map (orderFinding s i root)).toList ++
      if fromSys then platformFindings s i tokens else []
  | _ => []

/-- The findings about imports. -/
def findings (s : Source) : List Finding :=
  let first := firstLocal? s
  s.visible.flatMap fun (row, i) => lineFindings s first row i

end MojoLint.Rule.Imports
