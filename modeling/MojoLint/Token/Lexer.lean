import MojoLint.Token.Basic

/-!
# Lexing a line

`Token.ofLine` lexes one line on its own. Each step looks at the bytes that remain, decides the
kind of the next token and how many bytes it takes, and goes on behind it, so tokens are slices
of the line in order, and only gap bytes lie between them.

A line that closes a triple-quoted literal opened earlier is lexed by `Token.ofClosingLine`: its
first bytes are one continued string token, and only what follows is code.
-/

namespace MojoLint.Token

/-- The operators of more than one byte, longer ones first. -/
def operators : List Text :=
  ["//=", "**=", ">>=", "<<=", "...",
   "==", "!=", "<=", ">=", "+=", "-=", "*=", "/=", "%=", "&=", "|=", "^=",
   "->", "**", "//", "<<", ">>", ":="]

/-- The length of the operator or sign at the start of `rest`. -/
def punctSize (rest : Text) : Nat :=
  match operators.find? (·.isPrefixOf rest) with
  | some op => op.length
  | none => 1

/-- The length of what remains of a literal up to and including the delimiter that closes it, and
whether that delimiter was met before the end of the line. A backslash hides the byte after it. -/
def untilClosed (delim : Text) : Text → Nat × Bool
  | [] => (0, false)
  | b :: rest =>
    if b = Byte.backslash then
      match rest with
      | [] => (1, false)
      | _ :: after =>
        let (n, closed) := untilClosed delim after
        (n + 2, closed)
    else if delim.isPrefixOf (b :: rest) then (delim.length, true)
    else
      let (n, closed) := untilClosed delim rest
      (n + 1, closed)

/-- The length and the extent of the literal at the start of `rest`, if one starts there: at most
two letters, then a single quote or three of the same kind. -/
def literal? (rest : Text) : Option (Nat × Extent) :=
  let letters := ((rest.take 2).takeWhile Byte.isLiteralLetter).length
  match rest.drop letters with
  | [] => none
  | q :: after =>
    if Byte.isQuote q then
      let quotes := if [q, q].isPrefixOf after then 3 else 1
      let (n, closed) := untilClosed (List.replicate quotes q) (after.drop (quotes - 1))
      some (letters + quotes + n, if closed then .complete else .unterminated)
    else none

/-- The kind of the token that starts with the byte `b`, and how many bytes of `rest`, the bytes
after `b`, belong to it. -/
def lexeme (b : UInt8) (rest : Text) : Kind × Nat :=
  if b = Byte.hash then (.comment, rest.length)
  else
    match literal? (b :: rest) with
    | some (size, extent) => (.string extent, size - 1)
    | none =>
      if Byte.isIdentStart b then (.ident, (rest.takeWhile Byte.isIdentPart).length)
      else if Byte.isDigit b then (.number, (rest.takeWhile Byte.isNumberPart).length)
      else (.punct, punctSize (b :: rest) - 1)

/-- The tokens of the bytes that remain of a line from the column `pos` on. -/
def scan (pos : Nat) (line : Text) : List Token :=
  match line with
  | [] => []
  | b :: rest =>
    if Byte.isGap b then scan (pos + 1) rest
    else
      let (kind, more) := lexeme b rest
      ⟨kind, b :: rest.take more, pos.toUInt32⟩ :: scan (pos + more + 1) (rest.drop more)
termination_by line.length
decreasing_by
  all_goals simp only [List.length_cons, List.length_drop]
  all_goals omega

@[simp] theorem scan_nil (pos : Nat) : scan pos [] = [] := by rw [scan]

/-- A gap byte is passed over. -/
theorem scan_gap (pos : Nat) {b : UInt8} (rest : Text) (h : Byte.isGap b) :
    scan pos (b :: rest) = scan (pos + 1) rest := by
  rw [scan, if_pos h]

/-- Any other byte starts a token, and the scan goes on behind it. -/
theorem scan_lexeme (pos : Nat) {b : UInt8} (rest : Text) (h : ¬ Byte.isGap b) :
    scan pos (b :: rest) =
      ⟨(lexeme b rest).1, b :: rest.take (lexeme b rest).2, pos.toUInt32⟩ ::
        scan (pos + (lexeme b rest).2 + 1) (rest.drop (lexeme b rest).2) := by
  rw [scan, if_neg h]

/-- The tokens of a line. -/
def ofLine (line : Text) : List Token := scan 0 line

/-- The token for the first `closed` bytes of a line that finish a literal of an earlier line,
without the indentation before it. -/
def tailOf (line : Text) (closed : Nat) : Token :=
  let indentation := ((line.take closed).takeWhile Byte.isIndent).length
  ⟨.string .continued, (line.take closed).drop indentation, indentation.toUInt32⟩

/-- The tokens of a line whose first `closed` bytes finish a literal that an earlier line opened.
A line that finishes none is lexed as it stands. -/
def ofClosingLine (line : Text) (closed : Nat) : List Token :=
  if closed = 0 ∨ line.length < closed then ofLine line
  else tailOf line closed :: scan closed (line.drop closed)

end MojoLint.Token
