import MojoLint.Store.Path

/-!
# The file store

A store is a file system seen from a working directory: a list of entries, each at its route, the
names that lead to it from there. A route holds neither `.` nor `..` nor an empty name; a path is
turned into a route by following it, which fails as it does on any file system: where a directory
is missing, where a file is in its place, and at a name that is too long.

The order of the entries is the order in which the store lists them, and no answer depends on it.
-/

namespace MojoLint

/-- The names that lead to an entry from the working directory. -/
abbrev Route := List Text

namespace Store

/-- Why the store refuses something. -/
inductive Fault where
  | missing
  | notDirectory
  | isDirectory
  | invalid
  | notEmpty
  | tooLarge
  | tooLong
  | sameFile
deriving DecidableEq

/-- The message about a fault. -/
def Fault.message : Fault → Text
  | .missing => "No such file or directory"
  | .notDirectory => "Not a directory"
  | .isDirectory => "Is a directory"
  | .invalid => "Invalid argument"
  | .notEmpty => "Directory not empty"
  | .tooLarge => "File too large"
  | .tooLong => "File name too long"
  | .sameFile => "File exists"

/-- What is found at a route. -/
inductive Entry where
  /-- A file with its content and the time at which it was last written. -/
  | file (content : Text) (written : Int64)
  | directory
deriving DecidableEq

end Store

/-- A file system seen from a working directory. Times count nanoseconds. -/
structure Store where
  entries : List (Route × Store.Entry)
  now : Int64

namespace Store

/-! ## Entries by route -/

/-- The entry at a route. The working directory is always there. -/
def get? (s : Store) (r : Route) : Option Entry :=
  if r = [] then some .directory else (s.entries.find? fun e => e.1 = r).map Prod.snd

/-- The store without the entry at a route. -/
def erase (s : Store) (r : Route) : Store :=
  { s with entries := s.entries.filter fun e => e.1 ≠ r }

/-- The store with an entry at a route. -/
def put (s : Store) (r : Route) (e : Entry) : Store :=
  { s with entries := (r, e) :: (s.erase r).entries }

@[simp] theorem get?_nil (s : Store) : s.get? [] = some .directory := rfl

theorem get?_erase_self (s : Store) {r : Route} (h : r ≠ []) : (s.erase r).get? r = none := by
  simp [get?, erase, h]

theorem get?_erase_of_ne (s : Store) {r q : Route} (h : q ≠ r) :
    (s.erase r).get? q = s.get? q := by
  unfold get? erase
  split
  · rfl
  · congr 1
    rw [List.find?_filter]
    congr 1
    funext e
    by_cases he : e.1 = q
    · simp [he, h]
    · simp [he]

theorem get?_put_self (s : Store) {r : Route} (h : r ≠ []) (e : Entry) :
    (s.put r e).get? r = some e := by
  simp [get?, put, h]

theorem get?_put_of_ne (s : Store) {r q : Route} (h : q ≠ r) (e : Entry) :
    (s.put r e).get? q = s.get? q := by
  rw [← get?_erase_of_ne s h]
  unfold get? put
  simp [Ne.symm h]

/-- The entries below a route, each with the names that lead to it from there. -/
def entriesBelow (s : Store) (r : Route) : List (Route × Entry) :=
  s.entries.filterMap fun (route, e) =>
    match r.isPrefixOf? route with
    | some (name :: names) => some (name :: names, e)
    | _ => none

/-! ## Following a path -/

/-- The most bytes of a name. -/
def nameLimit : Nat := 255

/-- The most bytes of a path. -/
def pathLimit : Nat := 4095

/-- Follows names from the directory at `r`. A name can only be followed from a directory, and an
empty name or `.` stays in it, so that a slash at the end asks for a directory. -/
def follow (s : Store) (r : Route) : List Text → Except Fault Route
  | [] => .ok r
  | name :: names =>
    match s.get? r with
    | none => .error .missing
    | some (.file _ _) => .error .notDirectory
    | some .directory =>
      if name = [] || name = "." then s.follow r names
      else if name = ".." then s.follow r.dropLast names
      else if nameLimit < name.length then .error .tooLong
      else s.follow (r ++ [name]) names

/-- The route of a path. There need not be an entry at it, but there is a directory for it to be
in. The empty path leads nowhere. -/
def resolve (s : Store) (path : Text) : Except Fault Route :=
  let seen := Path.seen path
  if seen.isEmpty then .error .missing
  else if pathLimit < seen.length then .error .tooLong
  else s.follow [] (Path.names seen)

/-- The entry that a path leads to. -/
def status (s : Store) (path : Text) : Except Fault Entry :=
  match s.resolve path with
  | .error f => .error f
  | .ok r =>
    match s.get? r with
    | none => .error .missing
    | some e => .ok e

/-- Whether a path leads to a directory. -/
def isDirectory (s : Store) (path : Text) : Bool :=
  match s.status path with
  | .ok .directory => true
  | _ => false

/-- The file that a path leads to: its route and its content. -/
def file (s : Store) (path : Text) : Except Fault (Route × Text) :=
  match s.resolve path with
  | .error f => .error f
  | .ok r =>
    match s.get? r with
    | some (.file content _) => .ok (r, content)
    | some .directory => .error .isDirectory
    | none => .error .missing

/-- The content of the file that a path leads to. -/
def read (s : Store) (path : Text) : Except Fault Text :=
  match s.file path with
  | .ok (_, content) => .ok content
  | .error f => .error f

/-- The route at which a file can be written under a path. -/
def target (s : Store) (path : Text) : Except Fault Route :=
  match s.resolve path with
  | .error f => .error f
  | .ok r =>
    match s.get? r with
    | some .directory => .error .isDirectory
    | _ => .ok r

/-! ## The whole store -/

/-- The store with nothing in it. -/
def empty : Store := ⟨[], 0⟩

/-- The store with directories at `r` followed by each of the names, where they are missing. A file
in the way or a name that is too long is where it ends. -/
def makeAlong (s : Store) (r : Route) : List Text → Store
  | [] => s
  | name :: names =>
    if name = [] || name = "." then s.makeAlong r names
    else if name = ".." then s.makeAlong r.dropLast names
    else
      let next := r ++ [name]
      match s.get? next with
      | some .directory => s.makeAlong next names
      | some (.file _ _) => s
      | none =>
        if nameLimit < name.length then s else (s.put next .directory).makeAlong next names

/-- The store with a directory at a path and with all directories on the way to it. -/
def makeDirectories (s : Store) (path : Text) : Store :=
  s.makeAlong [] (Path.names (Path.seen path))

/-- The store with a file at a path, in directories that are made where they are missing. -/
def place (s : Store) (path content : Text) : Store :=
  let made := s.makeAlong [] (Path.names (Path.seen path)).dropLast
  match made.target path with
  | .error _ => made
  | .ok r => made.put r (.file content made.now)

/-- The store without what a path leads to and without everything below it. -/
def delete (s : Store) (path : Text) : Store :=
  match s.resolve path with
  | .error _ => s
  | .ok r => { s with entries := s.entries.filter fun e => !r.isPrefixOf e.1 }

/-- The store with the file that a path leads to last written at a time. -/
def setWritten (s : Store) (path : Text) (time : Int64) : Store :=
  match s.resolve path with
  | .error _ => s
  | .ok r =>
    match s.get? r with
    | some (.file content _) => s.put r (.file content time)
    | _ => s

/-- All entries in the byte order of their paths: the path and, for a file, its content. -/
def listing (s : Store) : List (Text × Option Text) :=
  let row : Route × Entry → Text × Option Text
    | (r, .file content _) => (List.intercalate "/" r, some content)
    | (r, .directory) => (List.intercalate "/" r, none)
  (s.entries.map row).mergeSort fun a b => a.1 ≤ b.1

end Store

end MojoLint
