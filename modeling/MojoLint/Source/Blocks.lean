import MojoLint.Block.Body
import MojoLint.Declaration.Function
import MojoLint.Source.Basic

/-!
# Loops and functions of a source file

The blocks that rules look into: the bodies of loops and of functions that start on a line that is
not excluded.
-/

namespace MojoLint

/-- A function with a body. -/
structure Function where
  name : Text
  block : Block

namespace Source

/-- The loops of the file in the order of their headers. -/
def loops (s : Source) : List Block :=
  let lines := s.lines
  s.visible.filterMap fun (row, i) =>
    if row.startsWith "for" || row.startsWith "while" then Block.at? lines i else none

/-- The functions of the file in the order of their headers. A function whose header starts on a
line that finishes a literal is not one of them. -/
def functions (s : Source) : List Function :=
  let lines := s.lines
  s.rows.zipIdx.filterMap fun (row, i) =>
    if row.canDeclare then
      (Declaration.functionName? row.text).bind fun name => (Block.at? lines i).map (⟨name, ·⟩)
    else none

/-- The rows of a block's body. -/
def bodyRows (s : Source) (b : Block) : List Row := s.slice b.first b.stop

end Source

end MojoLint
