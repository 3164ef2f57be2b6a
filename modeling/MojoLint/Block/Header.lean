import MojoLint.Text.Lines
import MojoLint.Token.CodeView

/-!
# Block headers

A header starts on a line and runs on over the following lines as long as a bracket is open. It
opens a block with the first colon outside all brackets.
-/

namespace MojoLint.Block

/-- Whether the token opens a bracket of any kind. -/
def opens (t : Token) : Bool := t.isPunct "(" || t.isPunct "[" || t.isPunct "\x7b"

/-- Whether the token closes a bracket of any kind. -/
def closes (t : Token) : Bool := t.isPunct ")" || t.isPunct "]" || t.isPunct "\x7d"

/-- The bracket depth after the tokens of a line entered at depth `depth`, or `none` when a colon
stands outside all brackets. A closing bracket without an open one changes nothing. -/
def depthAfter (depth : Nat) : List Token → Option Nat
  | [] => some depth
  | t :: ts =>
    if opens t then depthAfter (depth + 1) ts
    else if closes t then depthAfter (depth - 1) ts
    else if t.isPunct ":" && depth == 0 then none
    else depthAfter depth ts

/-- How many of the lines come before the one with the block-opening colon, for a header that is
`depth` brackets deep where they start. -/
def linesToColon (depth : Nat) : List Text → Option Nat
  | [] => none
  | line :: rest =>
    match depthAfter depth (Token.ofLine line) with
    | none => some 0
    | some 0 => none
    | some (d + 1) => (linesToColon (d + 1) rest).map (· + 1)

/-- The line with the block-opening colon of the header that starts on line `i`, if the header
opens a block. -/
def headerEnd? (lines : List Text) (i : Nat) : Option Nat :=
  (linesToColon 0 (lines.drop i)).map (i + ·)

/-- The header that starts on line `i`, up to its block-opening colon or, without one, the line
alone: the code views of its lines put on one line. -/
def headerText (lines : List Text) (i : Nat) : Text :=
  let last := (headerEnd? lines i).getD i
  Text.trim (List.intercalate " " (((lines.drop i).take (last + 1 - i)).map Token.codeOf))

end MojoLint.Block
