import MojoLint.Checker
import MojoLint.Store.Walk

/-!
# Source files of a directory

The source files below a directory are found at any depth by a walk that does not go into
directories with an excluded name. They are listed in the byte order of their paths.
-/

namespace MojoLint

/-- The source files that were found, and what there is to warn about. -/
structure Discovery where
  files : List Text
  warnings : Text
deriving DecidableEq

namespace Discovery

/-- Whether a path has the extension of a source file. -/
def isSource (o : Checker.Options) (path : Text) : Bool :=
  o.extensions.contains (Path.extension path)

/-- Whether a search goes into directories with a name. -/
def enters (o : Checker.Options) (name : Text) : Bool := !o.excludedDirs.contains name

/-- The path of an entry below `root` when it is a source file. -/
def path? (o : Checker.Options) (root : Text) : Route × Store.Entry → Option Text
  | (names, .file _ _) =>
    if isSource o (Path.below root names) then some (Path.below root names) else none
  | (_, .directory) => none

/-- The source files at and below `root`. A root that is a file is tested by its extension
alone. -/
def run (o : Checker.Options) (s : Store) (root : Text) : Discovery :=
  match s.status root with
  | .error f => ⟨[], "warning: cannot access " ++ root ++ ": " ++ f.message ++ "\n"⟩
  | .ok (.file _ _) => ⟨if isSource o root then [root] else [], []⟩
  | .ok .directory =>
    match s.resolve root with
    | .error _ => ⟨[], []⟩
    | .ok r => ⟨((s.walk (enters o) r).filterMap (path? o root)).mergeSort, []⟩

end Discovery

namespace Checker

/-- The report on the file that a path leads to. -/
def checkFile (o : Options) (s : Store) (path : Text) : Report :=
  match s.read path with
  | .ok text => check o path text
  | .error f => (Report.start path 0).fail f.message

/-- The reports on all source files at and below `root`. -/
def scan (o : Options) (s : Store) (root : Text) : List Report :=
  (Discovery.run o s root).files.map (checkFile o s)

end Checker

end MojoLint
