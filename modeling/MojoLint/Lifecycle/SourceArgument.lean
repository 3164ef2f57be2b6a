import MojoLint.Declaration.Function

/-!
# The source argument of a lifecycle method

A copy or move initialiser takes the value it is made from as its last argument. Its name is read
from the header of the method.
-/

namespace MojoLint.Lifecycle

open Declaration (pushLast)

/-- Splits header tokens into groups at the commas outside inner brackets, where `depth` brackets
are open and `groups` have been read. Every opening parenthesis outside all brackets starts a
group, and the parenthesis that closes the argument list ends the header. -/
def argumentGroups (depth : Int) (groups : List (List Token)) : List Token → List (List Token)
  | [] => groups
  | t :: ts =>
    if t.isOpener then
      if depth = 0 && t.isPunct "(" then argumentGroups (depth + 1) (groups ++ [[]]) ts
      else argumentGroups (depth + 1) (if 0 ≤ depth then pushLast t groups else groups) ts
    else if t.isCloser then
      if depth = 1 then if t.isPunct ")" then groups else argumentGroups 0 groups ts
      else argumentGroups (depth - 1) (if 2 ≤ depth then pushLast t groups else groups) ts
    else if depth = 1 && t.isPunct "," then argumentGroups depth (groups ++ [[]]) ts
    else argumentGroups depth (if 1 ≤ depth then pushLast t groups else groups) ts

/-- The name that an argument declares: its first identifier that is no convention word, provided
a colon follows it. -/
def declaredName? : List Token → Option Text
  | t :: next :: rest =>
    if t.kind == .ident && !Declaration.isConvention t.text then
      if next.isPunct ":" then some t.text else none
    else declaredName? (next :: rest)
  | _ => none

/-- The name of the argument that a lifecycle method reads from: the one declared by the last of
at least two arguments. -/
def sourceArgument? (header : Text) : Option Text :=
  match argumentGroups 0 [] (Token.ofLine header) with
  | g :: h :: gs => declaredName? ((h :: gs).getLastD g)
  | _ => none

/-- The source argument of a header, `existing` when it cannot be read. -/
def sourceArgument (header : Text) : Text := (sourceArgument? header).getD "existing"

end MojoLint.Lifecycle
