import MojoLint.Block.Header
import MojoLint.Declaration.Function
import MojoLint.Finding.Basic
import MojoLint.Source.Basic

/-!
# Variable rules

Bindings are declared with `var` and no longer with `let`, and the argument conventions `inout`
and `borrowed` have new names.
-/

namespace MojoLint.Rule.Variables

/-- The comment that a binding gets whose keyword was replaced. -/
def marker : Text := "  # TODO: verify mutability (was let)"

/-- Whether the tokens start a `let` binding of a name or of a tuple. -/
def isLetBinding : List Token → Bool
  | keyword :: next :: _ => keyword.isIdent "let" && (next.kind == .ident || next.isPunct "(")
  | _ => false

/-- The edit that turns the `let` at `column` into `var` and marks the line. -/
def letEdit (s : Source) (row : Row) (column : UInt32) : Edit :=
  { file := s.path
    offset := row.offset + column
    length := (row.text.length - column.toNat).toUInt32
    replacement := "var" ++ Text.trimRight (row.text.drop (column.toNat + 3)) ++ marker
    note := "Replace let with var" }

/-- The finding for a `let` binding at `column`. -/
def letFinding (s : Source) (row : Row) (i : Nat) (column : UInt32) : Finding :=
  Finding.onLine "LET_BINDING" .variableDeclaration .error s.path i
    "'let' bindings are no longer supported" "Declare the binding with 'var'"
    [letEdit s row column]

/-- The findings about `let` on one line. -/
def letFindings (s : Source) (row : Row) (i : Nat) : List Finding :=
  let tokens := row.codeTokens
  if isLetBinding tokens then
    [letFinding s row i ((tokens.head?.map Token.column).getD 0)]
  else []

/-- The current word for a deprecated argument convention. -/
def currentConvention? (t : Token) : Option Text :=
  if t.isIdent "inout" then some "mut" else if t.isIdent "borrowed" then some "read" else none

/-- The findings about the argument conventions on one line. -/
def conventionFindings (s : Source) (row : Row) (i : Nat) : List Finding :=
  row.codeTokens.filterMap fun t =>
    (currentConvention? t).map fun current =>
      Finding.onLine "DEPRECATED_ARG_CONVENTION" .variableDeclaration .warning s.path i
        ("Argument convention '" ++ t.text ++ "' is deprecated")
        ("Use '" ++ current ++ "' instead") []

/-- The findings about the function header that starts on line `i`. -/
def headerFindings (s : Source) (lines : List Text) (row : Row) (i : Nat) : List Finding :=
  if row.closed = 0 && (Declaration.functionName? row.text).isSome then
    let last := (Block.headerEnd? lines i).getD i
    ((s.slice i (last + 1)).zipIdx i).flatMap fun (r, j) => conventionFindings s r j
  else []

/-- The findings about variables and arguments. -/
def findings (s : Source) : List Finding :=
  let lines := s.lines
  s.visible.flatMap fun (row, i) => letFindings s row i ++ headerFindings s lines row i

end MojoLint.Rule.Variables
