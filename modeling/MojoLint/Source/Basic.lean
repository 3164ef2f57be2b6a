import MojoLint.Exclusion.Basic
import MojoLint.Token.CodeView

/-!
# Source files

A source file is its text cut into rows. A row is a line with everything the rules ask about it:
where it starts, whether it is excluded, its tokens and its code view.
-/

namespace MojoLint

/-- A line of a source file, ready to be checked. -/
structure Row where
  text : Text
  /-- The offset of the first byte in the file, as a 32-bit word that wraps. -/
  offset : UInt32
  /-- The line lies inside prose, and nothing is to be reported on it. -/
  excluded : Bool
  /-- How many bytes at the start of the line finish a literal of an earlier line. -/
  closed : UInt32
  tokens : List Token
  /-- The line without comments and without the contents of string literals. -/
  code : Text

namespace Row

/-- The tokens without the comment at the end. -/
def codeTokens (r : Row) : List Token := Token.dropComment r.tokens

/-- Whether the row begins with the identifier `word`. -/
def startsWith (r : Row) (word : Text) : Bool := r.tokens.head?.any (·.isIdent word)

/-- Whether the row holds the identifier `name`. -/
def mentions (r : Row) (name : Text) : Bool := r.tokens.any (·.isIdent name)

/-- Whether a declaration can start on the row: it lies in no literal, and no literal ends on
it. -/
def canDeclare (r : Row) : Bool := !r.excluded && r.closed == 0

end Row

/-- A source file. -/
structure Source where
  path : Text
  text : Text
  rows : List Row
  /-- The size of the text, as a 32-bit word that wraps. -/
  eof : UInt32

namespace Source

/-- The row of a line that starts at `offset` and was given `flags`. -/
def rowOf (checkDocs : Bool) (line : Text) (offset : UInt32) (flags : Exclusion.Flags) : Row :=
  let closed := Exclusion.tailOf checkDocs flags
  let tokens := Token.ofClosingLine line closed.toNat
  { text := line
    offset
    excluded := Exclusion.excludes checkDocs flags
    closed
    tokens
    code := Token.codeView tokens line }

/-- The source file at `path` with the given text. -/
def ofText (path text : Text) (checkDocs : Bool) : Source :=
  let lines := Line.split text
  let texts := lines.map Line.text
  let flags := (Exclusion.ofLines checkDocs texts).flags
  { path
    text
    rows := List.zipWith (fun (line, offset) f => rowOf checkDocs line offset f)
      (texts.zip (Line.starts 0 lines)) flags
    eof := text.length.toUInt32 }

/-- A source file has a row for each line of its text. -/
theorem length_rows (path text : Text) (checkDocs : Bool) :
    (ofText path text checkDocs).rows.length = (Text.lines text).length := by
  simp [ofText, Exclusion.ofLines, Text.lines]

/-- The lines of the file. -/
def lines (s : Source) : List Text := s.rows.map Row.text

/-- The offset at which line `i` starts, and the end of the file for a line past the last. -/
def offsetOf (s : Source) (i : Nat) : UInt32 := (s.rows[i]?.map Row.offset).getD s.eof

/-- The text of line `i`. -/
def line (s : Source) (i : Nat) : Text := (s.rows[i]?.map Row.text).getD []

/-- Whether line `i` is excluded. -/
def excluded (s : Source) (i : Nat) : Bool := s.rows[i]?.any Row.excluded

/-- The rows of the lines from `first` up to `stop`, `stop` itself not included. -/
def slice (s : Source) (first stop : Nat) : List Row := (s.rows.drop first).take (stop - first)

/-- The rows that are not excluded, each with its line number. -/
def visible (s : Source) : List (Row × Nat) := s.rows.zipIdx.filter fun (r, _) => !r.excluded

/-- Whether a row among `rows` that is not excluded satisfies `p`. -/
def anyVisible (rows : List Row) (p : Row → Bool) : Bool := rows.any fun r => !r.excluded && p r

/-- Whether a line that is not excluded holds the identifier `name`. -/
def mentions (s : Source) (name : Text) : Bool := anyVisible s.rows (·.mentions name)

/-- Whether one of the lines from `first` up to `stop` that is not excluded holds the identifier
`name`. -/
def spanMentions (s : Source) (first stop : Nat) (name : Text) : Bool :=
  anyVisible (s.slice first stop) (·.mentions name)

end Source

end MojoLint
