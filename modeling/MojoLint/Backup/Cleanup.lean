import MojoLint.Store.Walk

/-!
# Removing old backups

A cleanup walks below a directory and removes each backup that it comes to, once it is as old as the
retention asks. Ages and the retention window are compared as signed 64-bit counts of nanoseconds.
-/

namespace MojoLint

/-- What a cleanup did. -/
structure Cleanup where
  removed : List Text
  kept : Nat
  failures : List Text
deriving DecidableEq

namespace Cleanup

/-- The retention window of a number of days, none of them for a negative number. The count of
nanoseconds wraps. -/
def window (days : Int) : Int64 := Int64.ofInt (max days 0 * 24 * 3600 * 1000000000)

/-- Whether a file written at `written` has reached the end of its retention. -/
def isExpired (now written window : Int64) : Bool := window ≤ now - written

/-- What becomes of a backup. -/
inductive Fate where
  | removed
  | kept
  /-- Its path leads nowhere, so its age is unknown and it stays. -/
  | unreachable (fault : Store.Fault)
deriving DecidableEq

/-- Whether names lead to a backup. -/
def isBackup (names : Route) : Bool := (names.getLast?).any (Path.extension · == ".backup")

/-- What becomes of an entry below `root`, if it is a backup. It is reached by its path, and a path
that `root` begins can be too long even though `root` is not. -/
def fate? (s : Store) (root : Text) (window : Int64) : Route × Store.Entry → Option Fate
  | (names, .file _ written) =>
    if isBackup names then
      match s.resolve (Path.below root names) with
      | .error f => some (.unreachable f)
      | .ok _ => some (if isExpired s.now written window then .removed else .kept)
    else none
  | (_, .directory) => none

/-- The failure to be reported about what a path leads to. -/
def failure (path : Text) (f : Store.Fault) : Text := path ++ ": " ++ f.message

/-- Looks at an entry below `root`, which leads to `r`: an expired backup is removed, and what was
done is put down. -/
def visit (root : Text) (r : Route) (window : Int64) (done : Store × Cleanup)
    (entry : Route × Store.Entry) : Store × Cleanup :=
  let (s, c) := done
  let path := Path.below root entry.1
  match fate? s root window entry with
  | none => (s, c)
  | some .removed => (s.erase (r ++ entry.1), { c with removed := c.removed ++ [path] })
  | some .kept => (s, { c with kept := c.kept + 1 })
  | some (.unreachable f) => (s, { c with failures := c.failures ++ [failure path f] })

/-- Looks at entries one after the other, each in the store that the ones before it left. -/
def sweep (root : Text) (r : Route) (window : Int64) (s : Store)
    (entries : List (Route × Store.Entry)) : Store × Cleanup :=
  entries.foldl (visit root r window) (s, ⟨[], 0, []⟩)

/-- Nothing was done because of a fault with `root`. -/
def refused (root : Text) (f : Store.Fault) : Cleanup := ⟨[], 0, [failure root f]⟩

/-- Removes the expired backups at any depth below the directory `root`. Paths and failures are
listed in byte order. -/
def run (s : Store) (root : Text) (days : Int) : Store × Cleanup :=
  match s.status root, s.resolve root with
  | .error f, _ => (s, refused root f)
  | _, .error f => (s, refused root f)
  | .ok (.file _ _), _ => (s, refused root .notDirectory)
  | .ok .directory, .ok r =>
    let (cleaned, c) := sweep root r (window days) s (s.walk (fun _ => true) r)
    (cleaned, ⟨c.removed.mergeSort, c.kept, c.failures.mergeSort⟩)

end Cleanup

end MojoLint
