import MojoLint.Command.Run

/-!
# The command-line tool

The outer layer: what a command line is about is read from disk into a store, the command line is
run on the store, its output is printed, and the files that changed are written back.
-/

namespace MojoLint.Disk

/-- What was read from disk: a store, and for its routes the paths that lead to them on disk. -/
structure Image where
  store : Store
  paths : List (Route × String)

/-- A time of the file system in nanoseconds. -/
def nanoseconds (t : IO.FS.SystemTime) : Int64 :=
  Int64.ofInt (t.sec * 1000000000 + t.nsec.toNat)

/-- The current time of the file system. -/
def clock : IO Int64 :=
  IO.FS.withTempFile fun _ file => return nanoseconds (← file.metadata).modified

/-- The image with a path on disk for the route that it leads to. -/
def withPath (i : Image) (store : Store) (path : String) : Image :=
  match store.resolve (Text.ofString path) with
  | .ok route => ⟨store, (route, path) :: i.paths⟩
  | .error _ => ⟨store, i.paths⟩

/-- Reads what is at a path, and below it when it is a directory. -/
partial def loadBelow (i : Image) (path : String) : IO Image := do
  let text := Text.ofString path
  let file := (← IO.currentDir) / path
  if ← file.isDir then
    let mut i := withPath i (i.store.makeDirectories text) path
    let root := if path.endsWith "/" then path else path ++ "/"
    for entry in ← file.readDir do
      i ← loadBelow i (root ++ entry.fileName)
    return i
  else if ← file.pathExists then
    let content := (← IO.FS.readBinFile file).toList
    let written := nanoseconds (← file.metadata).modified
    return withPath i ((i.store.place text content).setWritten text written) path
  else return withPath i i.store path

/-- Reads what a command about a path needs: the directories on the way to it, what is there, and
its backup. A file on the way blocks it, whatever it holds. -/
def load (path : String) : IO Image := do
  let names := path.splitOn "/"
  let mut s : Store := ⟨[], ← clock⟩
  for n in List.range names.length do
    let way := String.intercalate "/" (names.take n)
    let entry := (← IO.currentDir) / way
    if ← entry.isDir then s := s.makeDirectories (Text.ofString way)
    else if ← entry.pathExists then s := s.place (Text.ofString way) []
  loadBelow (← loadBelow ⟨s, []⟩ path) (path ++ ".backup")

/-- Removes from disk the files that are gone from the store, and writes those that are new or
have changed. -/
def save (i : Image) (s : Store) : IO Unit := do
  for (route, path) in i.paths do
    match i.store.get? route, s.get? route with
    | some _, none => IO.FS.removeFile path
    | old, some (.file content written) =>
      unless old = some (.file content written) do IO.FS.writeBinFile path ⟨content.toArray⟩
    | _, _ => pure ()

/-- Prints bytes. -/
def put (stream : IO.FS.Stream) (t : Text) : IO Unit := do
  stream.write ⟨t.toArray⟩
  stream.flush

/-- Runs a command line on what is on disk. A rejected one looks at nothing. -/
def run (arguments : List String) : IO Command.Answer := do
  let texts := arguments.map Text.ofString
  match Command.Request.ofArguments texts, arguments with
  | .ok request, _ :: path :: _ =>
    let image ← load path
    let answer := request.run .sound image.store
    save image answer.store
    return answer
  | _, _ => return Command.run .sound .empty texts

end MojoLint.Disk

open MojoLint in
/-- Runs the command line and returns its exit code. -/
def main (arguments : List String) : IO UInt32 := do
  let answer ← Disk.run arguments
  Disk.put (← IO.getStdout) answer.stdout
  Disk.put (← IO.getStderr) answer.stderr
  return answer.exit
