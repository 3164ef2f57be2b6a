import MojoLint.Finding.Basic
import MojoLint.Source.Basic

/-!
# Error-handling rules

An error that is caught is bound to a name, and an error that is raised carries a message.
-/

namespace MojoLint.Rule.Errors

/-- Whether the tokens are a handler that binds nothing. -/
def isBareExcept : List Token → Bool
  | keyword :: next :: _ => keyword.isIdent "except" && next.isPunct ":"
  | _ => false

/-- Whether the tokens behind an opening parenthesis are an argument list without a message:
nothing, or a string of white space alone. -/
def isEmptyArguments : List Token → Bool
  | t :: rest =>
    t.isPunct ")" ||
      (t.isString && (Text.trim t.contents).isEmpty && rest.head?.any (·.isPunct ")"))
  | [] => false

/-- Whether an error is constructed without a message among the tokens, which follow the token
`prev`. A method with the same name is no error. -/
def constructsEmpty (prev : Option Token) : List Token → Bool
  | [] => false
  | t :: rest =>
    (t.isIdent "Error" && !prev.any (·.isPunct ".") &&
      match rest with
      | bracket :: arguments => bracket.isPunct "(" && isEmptyArguments arguments
      | [] => false) ||
    constructsEmpty (some t) rest

/-- The findings on one line. -/
def lineFindings (s : Source) (row : Row) (i : Nat) : List Finding :=
  let tokens := row.codeTokens
  (if isBareExcept tokens then
    [Finding.onLine "BARE_EXCEPT" .errorHandling .warning s.path i
      "Bare 'except:' hides the error that was raised"
      "Bind the error with 'except e:' and handle or re-raise it" []]
  else []) ++
  if constructsEmpty none tokens then
    [Finding.onLine "ERROR_WITHOUT_MESSAGE" .errorHandling .suggestion s.path i
      "Error is constructed without a descriptive message"
      "Pass a message that says what failed and why" []]
  else []

/-- The findings about error handling. -/
def findings (s : Source) : List Finding := s.visible.flatMap fun (row, i) => lineFindings s row i

end MojoLint.Rule.Errors
