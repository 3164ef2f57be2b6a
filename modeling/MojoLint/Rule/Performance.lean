import MojoLint.Finding.Basic
import MojoLint.Source.Blocks

/-!
# Performance rules

Loops run over collections directly, import nothing and do not build strings piece by piece.
-/

namespace MojoLint.Rule.Performance

/-- Whether the tokens start with tokens of the given texts. -/
def startsWithTexts : List Text → List Token → Bool
  | [], _ => true
  | _ :: _, [] => false
  | x :: xs, t :: ts => t.text == x && startsWithTexts xs ts

/-- Whether tokens of the given texts stand somewhere among the tokens. -/
def holdsTexts (texts : List Text) : List Token → Bool
  | [] => false
  | t :: ts => startsWithTexts texts (t :: ts) || holdsTexts texts ts

/-- Whether a loop runs over the indices of a collection. -/
def isIndexLoop : List Token → Bool
  | [] => false
  | t :: ts => t.isIdent "for" && holdsTexts ["in", "range", "(", "len", "("] ts

/-- Whether a string literal stands behind the first `+=`. -/
def appendsLiteral (tokens : List Token) : Bool :=
  ((tokens.dropWhile fun t => !t.isPunct "+=").drop 1).any Token.isString

/-- The findings that only concern lines inside a loop. -/
def loopFindings (s : Source) (i : Nat) (tokens : List Token) : List Finding :=
  (if holdsTexts ["Python", ".", "import_module", "("] tokens then
    [Finding.onLine "PY_IMPORT_IN_LOOP" .performance .warning s.path i
      "Python module imported inside a loop" "Import the module once before the loop" []]
  else []) ++
  if appendsLiteral tokens then
    [Finding.onLine "STRING_CONCAT_IN_LOOP" .performance .observation s.path i
      "String built by repeated concatenation inside a loop"
      "Collect the pieces in a List and join them once" []]
  else []

/-- The findings on one line. -/
def lineFindings (s : Source) (loops : List Block) (row : Row) (i : Nat) : List Finding :=
  let tokens := row.codeTokens
  (if isIndexLoop tokens then
    [Finding.onLine "RANGE_LEN_LOOP" .performance .observation s.path i
      "Loop indexes through range(len(...))"
      "Iterate over the collection directly when the index is not needed" []]
  else []) ++
  if loops.any (·.contains i) then loopFindings s i tokens else []

/-- The findings about performance. -/
def findings (s : Source) : List Finding :=
  let loops := s.loops
  s.visible.flatMap fun (row, i) => lineFindings s loops row i

end MojoLint.Rule.Performance
