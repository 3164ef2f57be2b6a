import MojoLint.Backup.Basic
import MojoLint.Edit.Apply
import MojoLint.Edit.Select
import MojoLint.Finding.Basic
import MojoLint.Repair.Validator

/-!
# Repairing a file

A repair reads a file, makes a backup, carries out the selected edits, writes the result and has
it validated. A file that could not be written or was rejected is rolled back: from the backup, or
without one from the content that was read.
-/

namespace MojoLint

namespace Repair

open Store (Attempt Delivery Effect Fault Medium)

/-- How a repair is to be done. -/
structure Options where
  /-- Edits are carried out and not only planned. -/
  apply : Bool
  /-- A backup is made before the file is changed. -/
  backup : Bool
  /-- The backup of a repaired file is never removed. -/
  keepBackups : Bool
  /-- The backup of a repaired file is removed. -/
  autoCleanup : Bool
deriving DecidableEq

/-- How a repair ended. -/
inductive Status where
  | nothingToFix
  | planned
  | applied
  | rolledBack
  | failed
deriving DecidableEq

/-- The words for a status. -/
def Status.name : Status → Text
  | .nothingToFix => "nothing to fix"
  | .planned => "planned"
  | .applied => "applied"
  | .rolledBack => "rolled back"
  | .failed => "failed"

/-- Why a file could not be rolled back. -/
inductive Setback where
  | notRestored (error : Backup.Error)
  | notWrittenBack
deriving DecidableEq

/-- The message about a setback with the file at `path`. -/
def Setback.message (path : Text) : Setback → Text
  | .notRestored e => e.message path
  | .notWrittenBack => "Failed to rewrite original content of " ++ path

/-- The way a repair ended. A setback is what went wrong with rolling back. -/
inductive Ending where
  | unreadable (fault : Fault)
  | noEdits
  | planned (count : Nat)
  | noBackup (error : Backup.Error)
  | misfit (edit : Edit)
  | unwritten (setback : Option Setback)
  | rejected (why : Text) (setback : Option Setback)
  | applied (count : Nat)
deriving DecidableEq

/-- The status of an ending. -/
def Ending.status : Ending → Status
  | .noEdits => .nothingToFix
  | .planned _ => .planned
  | .applied _ => .applied
  | .unwritten none => .rolledBack
  | .rejected _ none => .rolledBack
  | _ => .failed

/-- The message about the ending of a repair of the file at `path`, whose backup is at
`backup`. -/
def Ending.message (path : Text) (backup : Option Text) : Ending → Text
  | .unreadable f => "Failed to read " ++ path ++ ": " ++ f.message
  | .noEdits => "No automatic fixes available"
  | .planned count => Text.ofNat count ++ " fix(es) available; rerun with --enable-auto-fix"
  | .noBackup e => e.message path ++ "; file left unchanged"
  | .misfit e => e.misfitMessage ++ "; file left unchanged"
  | .unwritten none => "Failed to write " ++ path ++ "; original restored"
  | .unwritten (some b) => "Failed to write " ++ path ++ "; " ++ b.message path
  | .rejected why none => "Validation failed (" ++ why ++ "); original restored"
  | .rejected why (some b) =>
    "Validation failed (" ++ why ++ ") and rollback failed: " ++ b.message path ++
      match backup with
      | some copy => "; restore manually from " ++ copy
      | none => []
  | .applied count => "Applied " ++ Text.ofNat count ++ " fix(es)"

/-- What a repair led to. -/
structure Outcome where
  store : Store
  ending : Ending
  /-- The selected edits in the order of their offsets. -/
  edits : List Edit
  /-- The number of edits that ran into others. -/
  skipped : Nat
  /-- Where the backup is, if there is one. -/
  backupPath : Option Text
  warnings : Text

/-- The status of an outcome. -/
def Outcome.status (o : Outcome) : Status := o.ending.status

/-- The message about an outcome for the file at `path`. -/
def Outcome.message (o : Outcome) (path : Text) : Text := o.ending.message path o.backupPath

/-- The edits of the findings for the file at `path`. -/
def candidates (path : Text) (findings : List Finding) : List Edit :=
  (findings.flatMap Finding.edits).filter fun e => e.file = path

/-- Brings back the content that the file at `path` had. -/
def rollback (o : Options) (m : Medium) (s : Store) (path content : Text) : Effect Setback :=
  if o.backup then
    let e := Backup.restore s path (m .rollback)
    ⟨e.store, e.error.map .notRestored⟩
  else
    let e := s.write path content (m .rollback)
    ⟨e.store, e.error.map fun _ => .notWrittenBack⟩

/-- The store after a repair of the file at `path` was validated, where the backup is at `backup`
afterwards, and what there is to warn about. -/
def settle (o : Options) (s : Store) (path : Text) (backup : Option Text) :
    Store × Option Text × Text :=
  if o.backup && o.autoCleanup && !o.keepBackups then
    let e := Backup.discard s path
    match e.error with
    | none => (e.store, none, [])
    | some error => (e.store, backup, "warning: " ++ error.message path ++ "\n")
  else (s, backup, [])

/-- What a validator, if there is one, has to say about the file at `path`. -/
def validate (v : Option Validator) (s : Store) (path : Text) : Judgement :=
  match v with
  | some v => v.judge s path
  | none => ⟨s, none, []⟩

/-- Writes the new content of a file that held `old`, has it validated, and rolls back when
something went wrong. -/
def overwrite (o : Options) (v : Option Validator) (m : Medium) (s : Store) (path old new : Text)
    (selection : Edit.Selection) (backup : Option Text) : Outcome :=
  let outcome (s : Store) (ending : Ending) (backup : Option Text) (warnings : Text) : Outcome :=
    ⟨s, ending, selection.edits, selection.skipped, backup, warnings⟩
  let written := s.write path new (m .repair)
  match written.error with
  | some _ =>
    let back := rollback o m written.store path old
    outcome back.store (.unwritten back.error) backup []
  | none =>
    let judged := validate v written.store path
    match judged.rejection with
    | some why =>
      let back := rollback o m judged.store path old
      outcome back.store (.rejected why back.error) backup judged.warnings
    | none =>
      let (settled, backup, warnings) := settle o judged.store path backup
      outcome settled (.applied selection.edits.length) backup (judged.warnings ++ warnings)

/-- Makes the backup if one is asked for, carries out the selected edits and overwrites the
file that holds `old`. -/
def carryOut (o : Options) (v : Option Validator) (m : Medium) (s : Store) (path old : Text)
    (selection : Edit.Selection) : Outcome :=
  let outcome (s : Store) (ending : Ending) (backup : Option Text) : Outcome :=
    ⟨s, ending, selection.edits, selection.skipped, backup, []⟩
  let saved : Effect Backup.Error :=
    if o.backup then Backup.create s path (m .backup) else ⟨s, none⟩
  match saved.error with
  | some error => outcome saved.store (.noBackup error) none
  | none =>
    let backup := if o.backup then some (Path.backup path) else none
    let applied := Edit.applyAll old selection.edits
    match applied.misfit with
    | some e => outcome saved.store (.misfit e) backup
    | none => overwrite o v m saved.store path old applied.text selection backup

/-- Repairs the file at `path` by the edits of the findings. -/
def run (o : Options) (v : Option Validator) (m : Medium) (s : Store) (path : Text)
    (findings : List Finding) : Outcome :=
  match s.read path with
  | .error f => ⟨s, .unreadable f, [], 0, none, []⟩
  | .ok old =>
    let selection := Edit.select (candidates path findings)
    if selection.edits.isEmpty then
      ⟨s, .noEdits, selection.edits, selection.skipped, none, []⟩
    else if !o.apply then
      ⟨s, .planned selection.edits.length, selection.edits, selection.skipped, none, []⟩
    else carryOut o v m s path old selection

end Repair

end MojoLint
