import MojoLint.Text.Basic

/-!
# Paths

A path is a text whose names are separated by slashes. What is read off a path here is read off
its text alone.
-/

namespace MojoLint.Path

/-- The part of a path that a file system looks at: it ends before the first NUL byte. -/
def seen (path : Text) : Text := path.takeWhile (· != Byte.nul)

/-- The names of a path, empty ones included. -/
def names (path : Text) : List Text := List.splitOn Byte.slash path

/-- The last name of a path, which is empty when the path ends in a slash. -/
def fileName (path : Text) : Text := ((names path).getLast?).getD []

/-- The extension of a name: from its last dot on. The name of a directory that stands for itself
or for its parent has none, and a dot at the start of a name begins no extension. -/
def extensionOf (name : Text) : Text :=
  let behind := name.reverse.takeWhile (· != Byte.dot)
  if name = ".." || name.length ≤ behind.length + 1 then [] else Byte.dot :: behind.reverse

/-- The extension of the last name of a path. -/
def extension (path : Text) : Text := extensionOf (fileName path)

/-- The path of what lies at `names` below `root`. -/
def below (root : Text) (names : List Text) : Text :=
  (if Text.endsWith root "/" then root else root ++ "/") ++ List.intercalate "/" names

/-- The path of the backup of a file: beside it, under its name with an extension added. -/
def backup (path : Text) : Text := path ++ ".backup"

end MojoLint.Path
