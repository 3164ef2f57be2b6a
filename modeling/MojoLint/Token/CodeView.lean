import MojoLint.Token.Lexer

/-!
# The code view of a line

The code view is the line as far as it is code: comments are dropped, string literals keep their
quotes and lose their contents, and white space at the end goes. All else, the gaps between tokens
included, is kept byte for byte.
-/

namespace MojoLint.Token

/-- What a token contributes to the code view. -/
def code (t : Token) : Text :=
  match t.kind with
  | .comment => []
  | .string _ => t.parts.opening ++ t.parts.closing
  | _ => t.text

/-- The code view of `rest`, the bytes of a line from the column `pos` on, where `tokens` are the
tokens of those bytes. -/
def codeFrom (pos : Nat) (rest : Text) : List Token → Text
  | [] => rest
  | t :: ts =>
    let gap := t.column.toNat - pos
    let after := t.column.toNat + t.text.length
    if t.kind = .comment then rest.take gap
    else rest.take gap ++ t.code ++ codeFrom after (rest.drop (after - pos)) ts

/-- The code view of a line with the given tokens. -/
def codeView (tokens : List Token) (line : Text) : Text :=
  Text.trimRight (codeFrom 0 line tokens)

/-- The code view of a line lexed on its own. -/
def codeOf (line : Text) : Text := codeView (ofLine line) line

end MojoLint.Token
