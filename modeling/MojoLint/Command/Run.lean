import MojoLint.Backup.Cleanup
import MojoLint.Command.Request
import MojoLint.Repair.Basic
import MojoLint.Report.Printer
import MojoLint.Store.Discovery

/-!
# Running a command line

A command line is carried out on a store. The answer is the store afterwards, what is printed, and
an exit code: 0 when all is well, 1 when the command found or met something wrong, 2 when the
command line was no good.
-/

namespace MojoLint.Command

/-- What running a command line leads to. -/
structure Answer where
  store : Store
  exit : UInt32
  stdout : Text
  stderr : Text

/-- How the tool is called. -/
def usage : Text := "usage: mcc <scan|validate|fix|report|cleanup> <path> [flags]\n"

/-- A line that reports an error. -/
def errorLine (message : Text) : Text := "error: " ++ message ++ "\n"

/-- A line that reports a warning. -/
def warningLine (message : Text) : Text := "warning: " ++ message ++ "\n"

/-- A line with a note. -/
def noteLine (message : Text) : Text := "note: " ++ message ++ "\n"

/-- A note that is printed only on request. -/
def noteIf (condition : Bool) (message : Text) : Text :=
  if condition then noteLine message else []

/-- The options of a check. -/
def Flags.checker (f : Flags) : Checker.Options :=
  { Checker.Options.standard with showObservations := f.showObservations, checkDocs := f.checkDocs }

/-- The options of a repair. -/
def Flags.repair (f : Flags) : Repair.Options :=
  { apply := f.enableAutoFix, backup := !f.disableBackup, keepBackups := f.keepBackups,
    autoCleanup := f.autoCleanup }

/-- The answer to a command that needs a directory and got something else. -/
def notADirectory (s : Store) (path : Text) : Answer :=
  ⟨s, 1, [], errorLine (path ++ " is not a directory")⟩

/-- The note about the number of files found. -/
def foundNote (count : Nat) (path : Text) : Text :=
  "found " ++ Text.ofNat count ++ " source file(s) under " ++ path

/-- The note about a file being checked. -/
def checkingNote (file : Text) : Text := "checking " ++ file

/-- Scans a directory and prints what was found. -/
def runScan (style : Style) (s : Store) (path : Text) (f : Flags) : Answer :=
  if s.isDirectory path then
    let found := Discovery.run f.checker s path
    let notes := noteIf f.verbose (foundNote found.files.length path) ++
      found.files.flatMap fun file => noteIf f.verbose (checkingNote file)
    ⟨s, 0, Report.printAll style (found.files.map (Checker.checkFile f.checker s)),
      found.warnings ++ notes⟩
  else notADirectory s path

/-- Checks one file and prints a detailed report. -/
def runValidate (s : Store) (path : Text) (f : Flags) : Answer :=
  let report := Checker.checkFile f.checker s path
  ⟨s, if 0 < report.count .error then 1 else 0, Report.printAll .detailed [report], []⟩

/-- The line about an edit of a repair. -/
def editLine (path : Text) (status : Repair.Status) (e : Edit) : Text :=
  path ++ ": " ++ (if status = .planned then Text.ofString "would apply" else "fix") ++ ": " ++
    e.note ++ " " ++ e.place ++ "\n"

/-- The notes about a repair. -/
def repairNotes (o : Repair.Outcome) (verbose : Bool) : Text :=
  noteIf (verbose && 0 < o.skipped) (Text.ofNat o.skipped ++ " overlapping fix(es) skipped") ++
    match o.backupPath with
    | some copy => noteIf verbose ("backup kept at " ++ copy)
    | none => []

/-- The note that tells where the content of a file that could not be repaired is. -/
def rescueNote : Option Text → Text
  | some copy => noteLine ("original content is in " ++ copy)
  | none => []

/-- The answer about a repair. -/
def repairAnswer (path : Text) (f : Flags) (o : Repair.Outcome) : Answer :=
  let edits := o.edits.flatMap (editLine path o.status)
  let notes := o.warnings ++ repairNotes o f.verbose
  let complaint := errorLine (path ++ ": " ++ o.message path)
  match o.status with
  | .rolledBack => ⟨o.store, 1, edits, notes ++ complaint⟩
  | .failed => ⟨o.store, 1, edits, notes ++ complaint ++ rescueNote o.backupPath⟩
  | status =>
    ⟨o.store, 0, edits ++ path ++ ": " ++ status.name ++ ": " ++ o.message path ++ "\n", notes⟩

/-- Checks one file and repairs it, or lists the edits that would. -/
def runFix (m : Store.Medium) (s : Store) (path : Text) (f : Flags) : Answer :=
  match s.read path with
  | .error fault =>
    ⟨s, 1, [], errorLine ("Cannot read file: " ++ fault.message ++ " (" ++ path ++ ")")⟩
  | .ok text =>
    let report := Checker.check f.checker path text
    repairAnswer path f (Repair.run f.repair (some .standard) m s path report.findings)

/-- The line about a removed backup. -/
def removedLine (path : Text) : Text := "removed " ++ path ++ "\n"

/-- The line about a cleanup. -/
def cleanupLine (c : Cleanup) (days : Int) : Text :=
  Text.ofNat c.removed.length ++ " backup(s) removed, " ++ Text.ofNat c.kept ++
    " kept (retention " ++ Text.ofInt days ++ " day(s))\n"

/-- Removes the expired backups below a directory. -/
def runCleanup (s : Store) (path : Text) (f : Flags) : Answer :=
  if s.isDirectory path then
    let (cleaned, c) := Cleanup.run s path f.retentionDays
    ⟨cleaned, if c.failures.isEmpty then 0 else 1,
      c.removed.flatMap removedLine ++ cleanupLine c f.retentionDays,
      c.failures.flatMap warningLine⟩
  else notADirectory s path

/-- Carries out a request. A negative retention is refused by every command. -/
def Request.run (m : Store.Medium) (s : Store) (r : Request) : Answer :=
  if r.flags.retentionDays < 0 then ⟨s, 2, [], errorLine "--retention-days must not be negative"⟩
  else
    match r.verb with
    | .scan => runScan .brief s r.path r.flags
    | .report => runScan .detailed s r.path r.flags
    | .validate => runValidate s r.path r.flags
    | .fix => runFix m s r.path r.flags
    | .cleanup => runCleanup s r.path r.flags

/-- What is printed about a rejected command line. -/
def Rejection.print (r : Rejection) : Text :=
  match r.message? with
  | some message => errorLine message ++ usage
  | none => usage

/-- Runs a command line. -/
def run (m : Store.Medium) (s : Store) (arguments : List Text) : Answer :=
  match Request.ofArguments arguments with
  | .ok request => request.run m s
  | .error rejection => ⟨s, 2, [], rejection.print⟩

end MojoLint.Command
