import MojoLint.Block.Header
import MojoLint.Declaration.Function

/-!
# Struct declarations

A struct header names the struct, may list compile-time parameters in square brackets and may list
traits in parentheses, separated by `,` or `&`.
-/

namespace MojoLint

/-- A declared struct. -/
structure Struct where
  name : Text
  /-- The declared traits in their order. -/
  traits : List Text
  /-- The line where the header starts. -/
  header : Nat
deriving DecidableEq

namespace Struct

/-- Whether the struct declares that it can be copied. -/
def isCopyable (s : Struct) : Bool := s.traits.contains "Copyable"

/-- Whether the struct declares that it can be moved. -/
def isMovable (s : Struct) : Bool := s.traits.contains "Movable"

/-- The entries of a trait list, where `depth` brackets are open and `current` is the name of the
entry being read. An entry is named by its first identifier outside inner brackets. -/
def traitNames (depth : Nat) (current : Option Text) : List Token → List Text
  | [] => current.toList
  | t :: ts =>
    if t.isOpener then traitNames (depth + 1) current ts
    else if t.isCloser then
      if depth = 1 then current.toList else traitNames (depth - 1) current ts
    else if depth = 1 && (t.isPunct "," || t.isPunct "&") then
      current.toList ++ traitNames depth none ts
    else if depth = 1 && t.kind == .ident && current.isNone then traitNames depth (some t.text) ts
    else traitNames depth current ts

/-- The traits listed by the header tokens that follow the name. -/
def traitsOf (ts : List Token) : List Text :=
  match Declaration.skipParameters ts with
  | [] => []
  | t :: rest => if t.isPunct "(" then traitNames 1 none rest else []

/-- The struct declared on line `i`, if the line starts a struct header. -/
def at? (lines : List Text) (i : Nat) : Option Struct :=
  match Token.ofLine ((lines[i]?).getD []) with
  | keyword :: name :: _ =>
    if keyword.isIdent "struct" && name.kind == .ident then
      some ⟨name.text, traitsOf ((Token.ofLine (Block.headerText lines i)).drop 2), i⟩
    else none
  | _ => none

end Struct

end MojoLint
