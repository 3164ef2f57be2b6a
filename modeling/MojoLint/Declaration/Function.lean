import MojoLint.Token.Lexer

/-!
# Function declarations

A line declares a function when it starts with `fn` or `def`, a name, and a parenthesis or a
square bracket.
-/

namespace MojoLint.Declaration

/-- The words that may stand before an argument name and say how the argument is passed. -/
def conventions : List Text :=
  ["owned", "read", "mut", "inout", "borrowed", "var", "deinit", "ref", "out"]

/-- Whether a word says how an argument is passed. -/
def isConvention (word : Text) : Bool := conventions.contains word

/-- The groups with `t` added to the last of them, if there is one. -/
def pushLast (t : Token) : List (List Token) → List (List Token)
  | [] => []
  | [g] => [g ++ [t]]
  | g :: h :: gs => g :: pushLast t (h :: gs)

/-- The name of the function that the line declares. -/
def functionName? (line : Text) : Option Text :=
  match Token.ofLine line with
  | keyword :: name :: bracket :: _ =>
    if (keyword.isIdent "fn" || keyword.isIdent "def") && name.kind == .ident && bracket.isOpener
    then some name.text
    else none
  | _ => none

/-- The tokens behind the square brackets at the start of `ts`: behind the bracket that closes
the first one, or none when it is never closed. Tokens that start with no square bracket are
returned as they are. -/
def skipParameters (ts : List Token) : List Token :=
  match ts with
  | [] => []
  | t :: rest => if t.isPunct "[" then behind 1 rest else ts
where
  /-- The tokens behind the bracket that closes the outermost of `depth` open ones. -/
  behind (depth : Nat) : List Token → List Token
    | [] => []
    | t :: ts =>
      if t.isPunct "[" then behind (depth + 1) ts
      else if t.isPunct "]" then if depth = 1 then ts else behind (depth - 1) ts
      else behind depth ts

end MojoLint.Declaration
