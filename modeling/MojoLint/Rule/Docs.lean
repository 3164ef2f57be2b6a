import MojoLint.Block.Header
import MojoLint.Declaration.Struct
import MojoLint.Docstring.Quality
import MojoLint.Docstring.Stub
import MojoLint.Finding.Basic
import MojoLint.Source.Basic

/-!
# Documentation rules

Every struct and every function with a body on lines of its own has a docstring, and the docstring
says enough.
-/

namespace MojoLint.Rule.Docs

/-- A declaration that needs a docstring. -/
inductive Owner where
  | struct (name : Text)
  | function (name : Text)

/-- How a report calls a declaration. -/
def Owner.phrase : Owner → Text
  | .struct name => "struct '" ++ name ++ "'"
  | .function name => "function '" ++ name ++ "'"

/-- The declaration on line `i`. -/
def Owner.at? (lines : List Text) (i : Nat) : Option Owner :=
  match Struct.at? lines i with
  | some declared => some (.struct declared.name)
  | none => (Declaration.functionName? ((lines[i]?).getD [])).map .function

/-- The rule that a docstring with this verdict breaks, and what to do about it. -/
def breach : Docstring.Verdict → Text × Text
  | .tooBrief => ("DOC_TOO_BRIEF", "Expand the docstring to say what the declaration does")
  | .missingDescription =>
    ("DOC_MISSING_DESCRIPTION", "Start the docstring with a one-sentence summary")
  | _ => ("DOC_MISSING_SECTIONS", "Add Args: and Returns: sections")

/-- The findings about the docstring of `owner` on line `doc`. -/
def qualityFindings (s : Source) (lines : List Text) (owner : Owner) (doc : Nat) : List Finding :=
  let verdict := (Docstring.assess lines doc).verdict
  if verdict.isAcceptable then []
  else
    let (id, suggestion) := breach verdict
    [Finding.onLine id .documentation .suggestion s.path doc
      ("Docstring of " ++ owner.phrase ++ " is " ++ verdict.name) suggestion []]

/-- The edits that insert `stub` at the start of the line behind the header end. A header on a
last line without a line feed gets one first. -/
def stubEdits (s : Source) (lines : List Text) (headerEnd : Nat) (stub : Option Text) : List Edit :=
  let lead : Text :=
    if headerEnd + 1 = lines.length && !Text.endsWith s.text "\n" then "\n" else []
  (stub.map fun doc =>
    { file := s.path, offset := s.offsetOf (headerEnd + 1), length := 0,
      replacement := lead ++ doc, note := "Insert placeholder docstring" }).toList

/-- The finding for a declaration on line `i` without a docstring. Its stub is indented by
`indent`. -/
def missingFinding (s : Source) (lines : List Text) (i headerEnd : Nat) (indent : UInt32) :
    Owner → Finding
  | .struct name =>
    Finding.onLine "MISSING_STRUCT_DOC" .documentation .error s.path i
      ("Struct '" ++ name ++ "' has no docstring")
      "Add a docstring describing the struct and its fields"
      (stubEdits s lines headerEnd (Docstring.structStub? name indent))
  | .function name =>
    Finding.onLine "MISSING_FN_DOC" .documentation .warning s.path i
      ("Function '" ++ name ++ "' has no docstring")
      "Add a docstring with Args: and Returns: sections"
      (stubEdits s lines headerEnd (Docstring.functionStub? (Block.headerText lines i) indent))

/-- The findings about a declaration whose header starts on line `i` and ends on `headerEnd`. The
docstring is looked for on the first line behind the header that is not blank; it counts when it
is indented deeper than the header. -/
def ownerFindings (s : Source) (lines : List Text) (i headerEnd : Nat) (owner : Owner) :
    List Finding :=
  let headerIndent := Line.indent ((lines[i]?).getD [])
  let after := lines.drop (headerEnd + 1)
  let next := headerEnd + 1 + (after.takeWhile Line.isBlank).length
  match (after.dropWhile Line.isBlank).head? with
  | some line =>
    if headerIndent < Line.indent line then
      if Text.startsWith (Text.trim line) Delimiter.triple then qualityFindings s lines owner next
      else [missingFinding s lines i headerEnd (Line.indent line) owner]
    else [missingFinding s lines i headerEnd (headerIndent + 4) owner]
  | none => [missingFinding s lines i headerEnd (headerIndent + 4) owner]

/-- The findings on one line. A header with its body on the same line carries no docstring. -/
def lineFindings (s : Source) (lines : List Text) (i : Nat) : List Finding :=
  match Owner.at? lines i, Block.headerEnd? lines i with
  | some owner, some headerEnd =>
    if (s.rows[headerEnd]?).any fun r => Text.endsWith r.code ":" then
      ownerFindings s lines i headerEnd owner
    else []
  | _, _ => []

/-- The findings about documentation. -/
def findings (s : Source) : List Finding :=
  let lines := s.lines
  s.rows.zipIdx.flatMap fun (row, i) => if row.canDeclare then lineFindings s lines i else []

end MojoLint.Rule.Docs
