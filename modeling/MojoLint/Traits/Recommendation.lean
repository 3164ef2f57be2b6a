/-!
# Trait recommendations

A trivial lifecycle method is redundant next to the trait that makes the compiler write it. So a
trivial method is removed, and the trait is declared where it is not. A declared trait is never
taken away.
-/

namespace MojoLint.Traits

/-- What to change about a struct. -/
structure Recommendation where
  addCopy : Bool
  addMove : Bool
  removeCopy : Bool
  removeMove : Bool
deriving DecidableEq

/-- Whether nothing is to be changed. -/
def Recommendation.isEmpty (r : Recommendation) : Bool :=
  !(r.addCopy || r.addMove || r.removeCopy || r.removeMove)

/-- The recommendation for a struct, from the traits it declares and its trivial methods. -/
def recommend (hasCopy hasMove trivialCopy trivialMove : Bool) : Recommendation where
  addCopy := trivialCopy && !hasCopy
  addMove := trivialMove && !hasMove
  removeCopy := trivialCopy
  removeMove := trivialMove

end MojoLint.Traits
