import MojoLint.Store.Basic

/-!
# Writing to the store

What is written need not arrive: a medium decides about each attempt whether it is faithful or
breaks off, and what it leaves behind when it does. So everything said about a repair can be said
for every way in which writing may fail.
-/

namespace MojoLint.Store

/-- What becomes of bytes on their way into a file. -/
inductive Delivery where
  /-- The file holds the bytes. -/
  | faithful
  /-- Writing fails. The file is untouched, or it holds the bytes `left`. -/
  | broken (fault : Fault) (left : Option Text)
deriving DecidableEq

/-- The attempts at writing that a repair makes. -/
inductive Attempt where
  /-- The backup of a file. -/
  | backup
  /-- The new content of a file. -/
  | repair
  /-- The old content of a file, once more. -/
  | rollback
deriving DecidableEq

/-- What becomes of the bytes of each attempt. -/
abbrev Medium := Attempt → Text → Delivery

/-- The medium on which nothing fails. -/
def Medium.sound : Medium := fun _ _ => .faithful

/-- The medium on which no file can grow beyond `limit` bytes: of more bytes it keeps the first
ones and fails. -/
def Medium.limited (limit : Nat) : Medium := fun _ content =>
  if content.length ≤ limit then .faithful else .broken .tooLarge (some (content.take limit))

/-- A store after an attempt at something, and the error if it failed. -/
structure Effect (ε : Type) where
  store : Store
  error : Option ε

/-- Brings bytes into the file at a route. -/
def deliver (s : Store) (r : Route) (content : Text) : Delivery → Effect Fault
  | .faithful => ⟨s.put r (.file content s.now), none⟩
  | .broken fault none => ⟨s, some fault⟩
  | .broken fault (some left) => ⟨s.put r (.file left s.now), some fault⟩

/-- Writes a file. -/
def write (s : Store) (path content : Text) (delivery : Text → Delivery) : Effect Fault :=
  match s.target path with
  | .error f => ⟨s, some f⟩
  | .ok r => s.deliver r content (delivery content)

/-- The fault of a copy when something is wrong with one of its two files. -/
def copyFault : Fault → Fault
  | .isDirectory => .invalid
  | f => f

/-- Copies a file over another one or to a new place. Directories can be neither copied nor
copied over, and a file cannot be copied over itself. A target with a name that is too long is
refused before the source is looked at; any other fault of the source comes first. -/
def copy (s : Store) (source target : Text) (delivery : Text → Delivery) : Effect Fault :=
  match s.target target, s.file source with
  | .error .tooLong, _ => ⟨s, some .tooLong⟩
  | _, .error f => ⟨s, some (copyFault f)⟩
  | .error f, .ok _ => ⟨s, some (copyFault f)⟩
  | .ok r, .ok (origin, content) =>
    if r = origin then ⟨s, some .sameFile⟩ else s.deliver r content (delivery content)

/-- Removes a file or an empty directory. What is not there need not be removed. -/
def remove (s : Store) (path : Text) : Effect Fault :=
  match s.resolve path with
  | .error .missing => ⟨s, none⟩
  | .error f => ⟨s, some f⟩
  | .ok r =>
    match s.get? r with
    | some .directory =>
      if (s.entriesBelow r).isEmpty then ⟨s.erase r, none⟩ else ⟨s, some .notEmpty⟩
    | _ => ⟨s.erase r, none⟩

end MojoLint.Store
