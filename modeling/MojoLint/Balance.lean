import MojoLint.Text.Delimiter
import MojoLint.Token.Lexer

/-!
# The structure of a text

A text is well structured when its brackets match outside strings and comments and no string is
left open. The scan has two states: in code it lexes the line, and inside a docstring it looks for
the closing delimiter. Only a string of three double quotes may run over the end of a line.
-/

namespace MojoLint.Balance

/-- What is wrong with the structure of a text. Lines count from 0. -/
inductive Fault where
  | unterminatedString (line : Nat)
  /-- A bracket closes none that is open. -/
  | unbalanced (bracket : UInt8) (line : Nat)
  /-- The docstring opened on the line is never closed. -/
  | unterminatedDocstring (line : Nat)
  /-- The bracket opened on the line is never closed. -/
  | unclosed (bracket : UInt8) (line : Nat)
deriving DecidableEq

/-- What a fault is, without its place. -/
def Fault.what : Fault → Text
  | .unterminatedString _ => "unterminated string"
  | .unbalanced bracket _ => "unbalanced '" ++ [bracket] ++ "'"
  | .unterminatedDocstring _ => "unterminated docstring"
  | .unclosed bracket _ => "unclosed '" ++ [bracket] ++ "'"

/-- The line of a fault. -/
def Fault.line : Fault → Nat
  | .unterminatedString line => line
  | .unbalanced _ line => line
  | .unterminatedDocstring line => line
  | .unclosed _ line => line

/-- The message about a fault. -/
def Fault.message (f : Fault) : Text := f.what ++ " on line " ++ Text.ofNat (f.line + 1)

/-- Whether a byte opens a bracket. -/
def isOpening (b : UInt8) : Bool := b == 40 || b == 91 || b == 123

/-- The bracket that a closing one asks for. -/
def partner? (b : UInt8) : Option UInt8 :=
  if b = 41 then some 40 else if b = 93 then some 91 else if b = 125 then some 123 else none

/-- The brackets that are open, the innermost first, each with its line. -/
abbrev Stack := List (UInt8 × Nat)

/-- The byte of a sign that is a single byte. -/
def signByte? (t : Token) : Option UInt8 :=
  match t.kind, t.text with
  | .punct, [b] => some b
  | _, _ => none

/-- Whether an unterminated string token opens a docstring. -/
def opensDocstring (t : Token) : Bool :=
  Delimiter.triple.isPrefixOf (t.text.dropWhile Byte.isLiteralLetter)

/-- The brackets open after the sign `b` on a line. -/
def bracketStep (line : Nat) (stack : Stack) (b : UInt8) : Except Fault Stack :=
  if isOpening b then .ok ((b, line) :: stack)
  else
    match partner? b with
    | none => .ok stack
    | some want =>
      match stack with
      | (top, _) :: rest => if top = want then .ok rest else .error (.unbalanced b line)
      | [] => .error (.unbalanced b line)

/-- The brackets open after the tokens of a line, and whether the line leaves a docstring open. -/
def scanTokens (line : Nat) (stack : Stack) : List Token → Except Fault (Stack × Bool)
  | [] => .ok (stack, false)
  | t :: ts =>
    if t.kind = .string .unterminated then
      if opensDocstring t then .ok (stack, true) else .error (.unterminatedString line)
    else
      match signByte? t with
      | none => scanTokens line stack ts
      | some b =>
        match bracketStep line stack b with
        | .ok next => scanTokens line next ts
        | .error fault => .error fault

/-- The part of a line that is code when the line starts inside a docstring, if it closes it. -/
def afterDocstring? (line : Text) : Option Text :=
  (Text.find Delimiter.triple line).map fun close => line.drop (close + 3)

/-- Scans the lines from number `i` on. `doc` is the line that opened the docstring they start in,
if they start in one. -/
def scanLines (i : Nat) (stack : Stack) (doc : Option Nat) : List Text → Except Fault Unit
  | [] =>
    match doc, stack with
    | some opened, _ => .error (.unterminatedDocstring opened)
    | none, (bracket, opened) :: _ => .error (.unclosed bracket opened)
    | none, [] => .ok ()
  | line :: rest =>
    match if doc.isSome then afterDocstring? line else some line with
    | none => scanLines (i + 1) stack doc rest
    | some code =>
      match scanTokens i stack (Token.ofLine code) with
      | .ok (next, opened) => scanLines (i + 1) next (if opened then some i else none) rest
      | .error fault => .error fault

/-- Checks the structure of a text. -/
def check (t : Text) : Except Fault Unit := scanLines 0 [] none t.lines

end MojoLint.Balance
