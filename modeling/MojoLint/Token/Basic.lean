import MojoLint.Text.Basic

/-!
# Tokens

A token is a kind, the bytes it is made of and the column at which they stand. A string token
also says how much of its literal lies on its line, because a triple-quoted literal can run over
several lines.
-/

namespace MojoLint

/-- Which part of a string literal a token holds. -/
inductive Extent where
  /-- The whole literal. -/
  | complete
  /-- A literal that the line does not close. -/
  | unterminated
  /-- The end of a literal that an earlier line opened. -/
  | continued
deriving DecidableEq

/-- The kind of a token. -/
inductive Kind where
  | ident
  | number
  | string (extent : Extent)
  | comment
  | punct
deriving DecidableEq

/-- A lexical unit of a line. -/
structure Token where
  kind : Kind
  text : Text
  /-- The column of the first byte, as a 32-bit word that wraps. -/
  column : UInt32
deriving DecidableEq

namespace Token

/-- Whether the token is the identifier `name`. -/
def isIdent (t : Token) (name : Text) : Bool := t.kind == .ident && t.text == name

/-- Whether the token is the operator or sign `sign`. -/
def isPunct (t : Token) (sign : Text) : Bool := t.kind == .punct && t.text == sign

/-- Whether the token is a string literal or a part of one. -/
def isString (t : Token) : Bool :=
  match t.kind with
  | .string _ => true
  | _ => false

/-- Whether the token opens a parenthesis or a square bracket. -/
def isOpener (t : Token) : Bool := t.isPunct "(" || t.isPunct "["

/-- Whether the token closes a parenthesis or a square bracket. -/
def isCloser (t : Token) : Bool := t.isPunct ")" || t.isPunct "]"

/-- The tokens without the comment at their end. -/
def dropComment (ts : List Token) : List Token :=
  match ts.getLast? with
  | some t => if t.kind = .comment then ts.dropLast else ts
  | none => ts

/-! ## The parts of a string token -/

/-- A string token cut into what opens the literal, what the literal holds and what closes it. -/
structure Parts where
  opening : Text
  contents : Text
  closing : Text

/-- The number of quotes that open the literal `s`, which starts with a quote. -/
def quoteCount (s : Text) : Nat :=
  if Text.startsWith s "\"\"\"" || Text.startsWith s "'''" then 3 else 1

/-- The parts of a string token. A literal continued from an earlier line has no opening and
ends in three quotes; an unterminated one has no closing. -/
def parts (t : Token) : Parts :=
  if t.kind = .string .continued then
    let size := if 3 ≤ t.text.length then t.text.length - 3 else t.text.length
    ⟨[], t.text.take size, t.text.drop size⟩
  else
    let letters := t.text.takeWhile Byte.isLiteralLetter
    let quoted := t.text.dropWhile Byte.isLiteralLetter
    let quotes := quoteCount quoted
    let rest := quoted.drop quotes
    let closing :=
      if t.kind = .string .unterminated then 0 else if quotes ≤ rest.length then quotes else 0
    ⟨letters ++ quoted.take quotes, rest.take (rest.length - closing),
      rest.drop (rest.length - closing)⟩

/-- The parts put together are the token. -/
theorem parts_append (t : Token) :
    t.parts.opening ++ t.parts.contents ++ t.parts.closing = t.text := by
  unfold parts
  split <;> simp only [List.append_assoc, List.nil_append, List.take_append_drop,
    List.takeWhile_append_dropWhile]

/-- What a string token holds between its quotes. -/
def contents (t : Token) : Text := t.parts.contents

end Token

end MojoLint
