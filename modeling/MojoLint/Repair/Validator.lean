import MojoLint.Balance
import MojoLint.Store.Basic

/-!
# Validators

A validator decides whether a repaired file is acceptable. It looks at the store, and it may
change it and warn about something.
-/

namespace MojoLint

/-- What a validator has to say about a file. -/
structure Judgement where
  /-- The store that the validator leaves. -/
  store : Store
  /-- Why the file is rejected, if it is. -/
  rejection : Option Text
  warnings : Text

/-- A judge of the file at a path. -/
structure Validator where
  judge : Store → Text → Judgement

namespace Validator

/-- What is wrong with the structure of the file at a path. -/
def structuralRejection (s : Store) (path : Text) : Option Text :=
  match s.read path with
  | .error f => some f.message
  | .ok text =>
    match Balance.check text with
    | .error fault => some fault.message
    | .ok _ => none

/-- Accepts every file. -/
def accepting : Validator := ⟨fun s _ => ⟨s, none, []⟩⟩

/-- Rejects every file for the same reason. -/
def rejecting (why : Text) : Validator := ⟨fun s _ => ⟨s, some why, []⟩⟩

/-- Judges a store that was changed first. -/
def after (change : Store → Text → Store) (v : Validator) : Validator :=
  ⟨fun s path => v.judge (change s path) path⟩

/-- Accepts well-structured files. -/
def structural : Validator := ⟨fun s path => ⟨s, structuralRejection s path, []⟩⟩

/-- Judges by running a program, which is not to be found. -/
def command (program : Text) : Validator :=
  rejecting (program ++ " not found: " ++ Store.Fault.missing.message)

/-- Accepts well-structured files, and warns that there is no compiler to ask. -/
def standard : Validator where
  judge s path :=
    match structuralRejection s path with
    | some why => ⟨s, some why, []⟩
    | none =>
      ⟨s, none, "warning: mojo not found on PATH; only structural validation ran for " ++ path ++
        "\n"⟩

end Validator

end MojoLint
