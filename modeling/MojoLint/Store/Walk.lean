import MojoLint.Store.Basic

/-!
# Walking below a directory

A walk visits the entries below a directory, depth first: an entry comes before what it holds, and
a directory is only gone into when its name allows it. The entries of one directory come in the
order in which the store lists them.
-/

namespace MojoLint.Store

/-- An entry that one name leads to, with that name. -/
def child? : Route × Entry → Option (Text × Entry)
  | ([name], e) => some (name, e)
  | _ => none

/-- What lies in the directory at a route itself, each entry with its name. -/
def children (s : Store) (r : Route) : List (Text × Entry) := (s.entriesBelow r).filterMap child?

/-- The most names that lead to an entry. -/
def depth (s : Store) : Nat := s.entries.foldr (fun e n => max e.1.length n) 0

/-- The entries below the directory at `r ++ names`, at most `levels` names further down, that a
walk from `r` comes to when it goes into the directories whose names `enters` accepts. Each entry
comes with the names that lead to it from `r`. -/
def walkFrom (s : Store) (enters : Text → Bool) (r : Route) :
    Nat → Route → List (Route × Entry)
  | 0, _ => []
  | levels + 1, names =>
    (s.children (r ++ names)).flatMap fun (name, e) =>
      (names ++ [name], e) ::
        if e = .directory && enters name then s.walkFrom enters r levels (names ++ [name]) else []

/-- The entries below the directory at `r` in the order of a walk. -/
def walk (s : Store) (enters : Text → Bool) (r : Route) : List (Route × Entry) :=
  s.walkFrom enters r s.depth []

end MojoLint.Store
