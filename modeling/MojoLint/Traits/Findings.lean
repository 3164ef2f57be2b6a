import MojoLint.Finding.Basic
import MojoLint.Lifecycle.Basic
import MojoLint.Traits.Insertion
import MojoLint.Traits.Recommendation

/-!
# Findings about traits

What a recommendation means for a source file: the findings it is reported as, and the edits that
carry it out.
-/

namespace MojoLint.Traits

/-- Whether a line decorates the method on the line `method`: it starts with `@` and is indented
like the method. -/
def decorates (method line : Text) : Bool :=
  Text.startsWith (Text.trim line) "@" && Line.indent line == Line.indent method

/-- The line where a method starts, its decorators included. -/
def firstLine (lines : List Text) (method : Nat) : Nat :=
  let text := (lines[method]?).getD []
  method - ((lines.take method).reverse.takeWhile (decorates text)).length

/-- The edit that deletes the method on the line `method`, from its decorators to the end of its
body. -/
def removal (source : Source) (method : Nat) (name : Text) : Edit :=
  let lines := source.lines
  let offset := source.offsetOf (firstLine lines method)
  let stop := match Block.at? lines method with
    | some block => block.stop
    | none => method + 1
  ⟨source.path, offset, source.offsetOf stop - offset, [], "Remove trivial " ++ name⟩

/-- A suggestion about traits. -/
def finding (source : Source) (id : Text) (line : Nat) (description suggestion : Text)
    (edits : List Edit) : Finding :=
  Finding.onLine id .traitUsage .suggestion source.path line description suggestion edits

/-- The line of a method, the line of the struct when there is no such method. -/
def methodLine (struct : Struct) (method : Option Lifecycle.Method) : Nat :=
  struct.header + (method.map Lifecycle.Method.offset).getD 0

/-- The findings about the traits and the lifecycle methods of one struct: first the methods that
a declared trait makes redundant, then the traits to be declared. -/
def findings (source : Source) (struct : Struct) (lifecycle : Lifecycle) : List Finding :=
  let r := recommend struct.isCopyable struct.isMovable lifecycle.trivialCopy lifecycle.trivialMove
  let owner := "Struct '" ++ struct.name
  let copyLine := methodLine struct lifecycle.copy
  let moveLine := methodLine struct lifecycle.move
  let removeCopy := removal source copyLine "__copyinit__"
  let removeMove := removal source moveLine "__moveinit__"
  let redundantCopy :=
    if r.removeCopy && !r.addCopy then
      [finding source "TRAIT_REDUNDANT_COPYINIT" copyLine
        (owner ++ "' declares Copyable and its __copyinit__ only copies fields")
        "Remove the trivial __copyinit__; Copyable already synthesizes it" [removeCopy]]
    else []
  let redundantMove :=
    if r.removeMove && !r.addMove then
      [finding source "TRAIT_REDUNDANT_MOVEINIT" moveLine
        (owner ++ "' declares Movable and its __moveinit__ only transfers fields")
        "Remove the trivial __moveinit__; Movable already synthesizes it" [removeMove]]
    else []
  let added :=
    if r.addCopy && r.addMove then
      [finding source "TRAIT_ADD_COPYABLE_MOVABLE" struct.header
        (owner ++ "' hand-writes trivial __copyinit__ and __moveinit__")
        "Declare Copyable and Movable and remove both trivial methods"
        [insertion source struct "Copyable, Movable", removeCopy, removeMove]]
    else if r.addCopy then
      [finding source "TRAIT_ADD_COPYABLE" copyLine
        (owner ++ "' hand-writes a trivial __copyinit__ without declaring Copyable")
        "Add Copyable to the trait list and remove the trivial __copyinit__"
        [insertion source struct "Copyable", removeCopy]]
    else if r.addMove then
      [finding source "TRAIT_ADD_MOVABLE" moveLine
        (owner ++ "' hand-writes a trivial __moveinit__ without declaring Movable")
        "Add Movable to the trait list and remove the trivial __moveinit__"
        [insertion source struct "Movable", removeMove]]
    else []
  redundantCopy ++ redundantMove ++ added

end MojoLint.Traits
