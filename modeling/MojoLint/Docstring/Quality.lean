import MojoLint.Text.Delimiter

/-!
# The quality of a docstring

A docstring on one line has to say enough. A longer one has to describe its subject and to name
arguments or a result, unless its description is long or its text runs over many lines.
-/

namespace MojoLint

namespace Docstring

/-- The verdict on a docstring. -/
inductive Verdict where
  /-- One line, long enough. -/
  | appropriate
  /-- Several lines that say enough. -/
  | comprehensive
  | tooBrief
  | missingDescription
  | missingSections
deriving DecidableEq

/-- The words a report uses for a verdict. -/
def Verdict.name : Verdict → Text
  | .appropriate => "appropriate"
  | .comprehensive => "comprehensive"
  | .tooBrief => "too brief"
  | .missingDescription => "missing description"
  | .missingSections => "missing sections"

/-- Whether a docstring with this verdict is good enough. -/
def Verdict.isAcceptable : Verdict → Bool
  | .appropriate | .comprehensive => true
  | _ => false

/-- What is known about a docstring. -/
structure Assessment where
  verdict : Verdict
  /-- The number of lines it spans, those of its delimiters included. -/
  lineCount : Nat
  /-- Its first paragraph on one line. -/
  description : Text
  hasParams : Bool
  hasReturns : Bool
  /-- Whether it says what is raised, which does not count towards the verdict. -/
  hasRaises : Bool
deriving DecidableEq

/-- The assessment where there is no docstring. -/
def Assessment.absent : Assessment := ⟨.tooBrief, 0, [], false, false, false⟩

/-- The fewest bytes of a description. -/
def minSize : Nat := 10

/-- A description longer than this needs no sections. -/
def longSize : Nat := 50

/-- Whether a line is nothing but the title of a section: one word and a colon. -/
def isSectionTitle (line : Text) : Bool :=
  Text.endsWith line ":" && !line.any (· == Byte.space) && 1 < line.length

/-- Whether a line starts with one of the words. -/
def startsWithAny (words : List Text) (line : Text) : Bool := words.any (Text.startsWith line)

/-- Whether a line starts the section of the arguments. -/
def startsParams : Text → Bool := startsWithAny ["Args:", "Arguments:", "Parameters:"]

/-- Whether a line starts the section of the result. -/
def startsReturns : Text → Bool := startsWithAny ["Returns:", "Return:", "Yields:"]

/-- Whether a line starts the section of the errors. -/
def startsRaises : Text → Bool := startsWithAny ["Raises:"]

/-- The lines of the first paragraph: from the first line that is not empty up to an empty line,
the title of a section or the end. -/
def firstParagraph (content : List Text) : List Text :=
  (content.dropWhile List.isEmpty).takeWhile fun line => !line.isEmpty && !isSectionTitle line

/-- The trimmed lines of a docstring up to its closing delimiter, read from the lines that follow
the one that opens it. -/
def contentAfter : List Text → List Text
  | [] => []
  | line :: rest =>
    match Text.find Delimiter.triple line with
    | some close => [Text.trim (line.take close)]
    | none => Text.trim line :: contentAfter rest

/-- The verdict on a docstring of several lines. -/
def verdictOf (lineCount size : Nat) (description : Text) (hasParams hasReturns : Bool) : Verdict :=
  let described : Bool := minSize ≤ description.length
  let signals := described.toNat + hasParams.toNat + hasReturns.toNat
  if 2 ≤ signals || longSize < description.length || (3 < lineCount && described) then
    .comprehensive
  else if size < minSize then .tooBrief
  else if !described then .missingDescription
  else .missingSections

/-- The assessment of a docstring with the given trimmed lines. -/
def assessLines (content : List Text) : Assessment :=
  let description := List.intercalate " " (firstParagraph content)
  let hasParams := content.any startsParams
  let hasReturns := content.any startsReturns
  let size := content.flatten.length
  { verdict := verdictOf content.length size description hasParams hasReturns
    lineCount := content.length
    description
    hasParams
    hasReturns
    hasRaises := content.any startsRaises }

/-- The assessment of a docstring that opens and closes on one line and holds `text`. -/
def assessShort (text : Text) : Assessment :=
  let description := Text.trim text
  { verdict := if minSize < description.length then .appropriate else .tooBrief
    lineCount := 1
    description
    hasParams := false
    hasReturns := false
    hasRaises := false }

/-- The assessment of the docstring that opens on line `i`. -/
def assess (lines : List Text) (i : Nat) : Assessment :=
  match lines.drop i with
  | [] => .absent
  | line :: rest =>
    match Text.find Delimiter.triple line with
    | none => .absent
    | some opening =>
      let inside := line.drop (opening + 3)
      match Text.find Delimiter.triple inside with
      | some close => assessShort (inside.take close)
      | none => assessLines (Text.trim inside :: contentAfter rest)

end Docstring

end MojoLint
