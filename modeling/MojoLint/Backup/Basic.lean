import MojoLint.Store.Medium

/-!
# Backups

Before a file is repaired, a copy of it is put beside it. Only a copy that reads back as the file
counts as a backup.
-/

namespace MojoLint.Backup

open Store (Attempt Delivery Effect Fault)

/-- Why something could not be done with a backup. -/
inductive Error where
  | notCopied (fault : Fault)
  /-- The file or its copy could not be read back. -/
  | notVerified (fault : Fault)
  | mismatch
  | notRestored (fault : Fault)
  | notRemoved (fault : Fault)
deriving DecidableEq

/-- The message about an error with the backup of the file at `path`. -/
def Error.message (path : Text) : Error → Text
  | .notCopied f => "Failed to back up " ++ path ++ ": " ++ f.message
  | .notVerified f => "Failed to verify backup of " ++ path ++ ": " ++ f.message
  | .mismatch => "Backup " ++ Path.backup path ++ " does not match " ++ path
  | .notRestored f => "Failed to restore " ++ path ++ " from backup: " ++ f.message
  | .notRemoved f => "Failed to remove backup of " ++ path ++ ": " ++ f.message

/-- What is wrong with the backup of a file, if anything is. -/
def verify (s : Store) (path : Text) : Option Error :=
  match s.read path, s.read (Path.backup path) with
  | .error f, _ => some (.notVerified f)
  | .ok _, .error f => some (.notVerified f)
  | .ok content, .ok copy => if content = copy then none else some .mismatch

/-- Makes a backup of a file and reads it back. -/
def create (s : Store) (path : Text) (delivery : Text → Delivery) : Effect Error :=
  let copied := s.copy path (Path.backup path) delivery
  match copied.error with
  | some f => ⟨copied.store, some (.notCopied f)⟩
  | none => ⟨copied.store, verify copied.store path⟩

/-- Copies the backup of a file over the file. -/
def restore (s : Store) (path : Text) (delivery : Text → Delivery) : Effect Error :=
  let copied := s.copy (Path.backup path) path delivery
  ⟨copied.store, copied.error.map .notRestored⟩

/-- Removes the backup of a file, if there is one. -/
def discard (s : Store) (path : Text) : Effect Error :=
  let removed := s.remove (Path.backup path)
  ⟨removed.store, removed.error.map .notRemoved⟩

end MojoLint.Backup
