import MojoLint.Declaration.Function

/-!
# Placeholder docstrings

For a declaration without a docstring, a stub that names what is to be described: the declaration,
its arguments and its result.
-/

namespace MojoLint.Docstring

/-- The argument names of an argument list and the tokens behind it, where `depth` brackets are
open. `expecting` says that the name of the current argument has not been read: it is the first
identifier outside inner brackets that is no convention word. -/
def argumentNames (depth : Nat) (expecting : Bool) : List Token → List Text × List Token
  | [] => ([], [])
  | t :: ts =>
    if t.isOpener || t.isPunct "\x7b" then argumentNames (depth + 1) expecting ts
    else if t.isCloser || t.isPunct "\x7d" then
      if depth = 1 then ([], ts) else argumentNames (depth - 1) expecting ts
    else if depth = 1 && t.isPunct "," then argumentNames depth true ts
    else if depth = 1 && expecting && t.kind == .ident && !Declaration.isConvention t.text then
      let (names, rest) := argumentNames depth false ts
      (if t.text = "self" then names else t.text :: names, rest)
    else argumentNames depth expecting ts

/-- Whether the tokens behind an argument list declare a result: an arrow that is followed by
something other than `None`. -/
def declaresResult : List Token → Bool
  | [] => false
  | t :: ts => if t.isPunct "->" then ts.head?.any (!·.isIdent "None") else declaresResult ts

/-- What a signature declares. -/
structure Signature where
  name : Text
  arguments : List Text
  hasResult : Bool
deriving DecidableEq

/-- Reads the tokens of a signature: a keyword, a name, compile-time parameters, arguments and a
result. -/
def Signature.ofTokens? : List Token → Option Signature
  | _ :: name :: rest =>
    let (arguments, behind) :=
      match Declaration.skipParameters rest with
      | [] => ([], [])
      | t :: ts => if t.isPunct "(" then argumentNames 1 true ts else ([], t :: ts)
    some ⟨name.text, arguments, declaresResult behind⟩
  | _ => none

/-- Indentation of the given width. -/
def padding (indent : UInt32) : Text := List.replicate indent.toNat Byte.space

/-- The line of a stub for an argument. -/
def argumentLine (pad name : Text) : Text := pad ++ "    " ++ name ++ ": TODO.\n"

/-- The lines of a stub that describe the arguments. -/
def argumentSection (pad : Text) : List Text → Text
  | [] => []
  | names => "\n" ++ pad ++ "Args:\n" ++ names.flatMap (argumentLine pad)

/-- The lines of a stub that describe the result. -/
def resultSection (pad : Text) : Bool → Text
  | false => []
  | true => "\n" ++ pad ++ "Returns:\n" ++ pad ++ "    TODO.\n"

/-- The stub for a signature. -/
def Signature.stub (s : Signature) (indent : UInt32) : Text :=
  let pad := padding indent
  pad ++ "\"\"\"TODO: Describe " ++ s.name ++ ".\n" ++ argumentSection pad s.arguments ++
    resultSection pad s.hasResult ++ pad ++ "\"\"\"\n"

/-- The stub for the function with the given header, indented by `indent` spaces. -/
def functionStub? (header : Text) (indent : UInt32) : Option Text :=
  (Signature.ofTokens? (Token.ofLine header)).map (·.stub indent)

/-- The stub for the struct with the given name, indented by `indent` spaces. -/
def structStub? (name : Text) (indent : UInt32) : Option Text :=
  if name.isEmpty then none
  else some (padding indent ++ "\"\"\"TODO: Describe the " ++ name ++ " struct.\"\"\"\n")

end MojoLint.Docstring
