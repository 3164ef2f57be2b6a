import MojoLint.Block.Header
import MojoLint.Text.Delimiter

/-!
# Blocks

The body of a block is made of the lines after its header up to the first code line that is not
indented deeper than the header. Lines inside a triple-quoted literal, blank lines and comments do
not end a body; blank lines and outdented comments at its end do not belong to it.
-/

namespace MojoLint

/-- A block: a header and the lines `first`, …, `stop - 1` of its body. -/
structure Block where
  /-- The line where the header starts. -/
  header : Nat
  /-- The line with the colon that opens the block. -/
  headerEnd : Nat
  first : Nat
  stop : Nat
  /-- The indentation of the header. -/
  indent : UInt32
deriving DecidableEq

namespace Block

/-- Whether the body has no line. -/
def isEmpty (b : Block) : Bool := b.stop ≤ b.first

/-- Whether the line belongs to the body. -/
def contains (b : Block) (line : Nat) : Bool := b.first ≤ line && line < b.stop

/-- Whether a line ends the body of a header indented by `indent`: it is code, and it is not
indented deeper. -/
def outdents (indent : UInt32) (line : Text) : Bool :=
  !Line.isBlankOrComment line && Line.indent line ≤ indent

/-- How many of the lines come before the one that ends the body. `inLiteral` says whether a
triple-quoted literal is open where they start. -/
def reach (indent : UInt32) (inLiteral : Bool) : List Text → Nat
  | [] => 0
  | line :: rest =>
    if !inLiteral && outdents indent line then 0
    else reach indent (inLiteral != (Delimiter.count line % 2 == 1)) rest + 1

/-- Whether a line at the end of a body is left out of it: a blank line, or a comment that is not
indented deeper than the header. -/
def trails (indent : UInt32) (line : Text) : Bool :=
  Line.isBlankOrComment line && (Line.isBlank line || Line.indent line ≤ indent)

/-- The lines without those at their end that trail a body. -/
def withoutTrailing (indent : UInt32) (body : List Text) : List Text :=
  (body.reverse.dropWhile (trails indent)).reverse

/-- The block whose header starts on line `i`, if that header opens one. -/
def at? (lines : List Text) (i : Nat) : Option Block :=
  (headerEnd? lines i).map fun headerEnd =>
    let indent := Line.indent ((lines[i]?).getD [])
    let after := lines.drop (headerEnd + 1)
    let body := withoutTrailing indent (after.take (reach indent false after))
    { header := i, headerEnd, first := headerEnd + 1, stop := headerEnd + 1 + body.length, indent }

/-- The lines of the body. -/
def body (b : Block) (lines : List Text) : List Text := (lines.drop b.first).take (b.stop - b.first)

/-- The code lines among the lines that start at number `i`, each with its number: lines without
any part of a triple-quoted literal that are neither blank nor a comment. `inLiteral` says whether
a literal is open where they start. -/
def codeLinesFrom (i : Nat) (inLiteral : Bool) : List Text → List (Nat × Text)
  | [] => []
  | line :: rest =>
    let delimiters := Delimiter.count line
    let later := codeLinesFrom (i + 1) (inLiteral != (delimiters % 2 == 1)) rest
    if inLiteral || delimiters > 0 || Line.isBlankOrComment line then later
    else (i, line) :: later

/-- The code lines of the body, each with its number. -/
def codeLines (b : Block) (lines : List Text) : List (Nat × Text) :=
  codeLinesFrom b.first false (b.body lines)

end Block

end MojoLint
