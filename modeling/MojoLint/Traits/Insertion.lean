import MojoLint.Block.Header
import MojoLint.Declaration.Struct
import MojoLint.Edit.Basic
import MojoLint.Source.Basic

/-!
# Inserting traits into a header

New traits are appended to the trait list of a struct header. A header without a list gets one,
behind the name and the compile-time parameters.
-/

namespace MojoLint.Traits

/-- The outermost bracket group that a header walk is in. -/
inductive Group where
  /-- Compile-time parameters in square brackets. -/
  | parameters
  /-- The trait list in parentheses. -/
  | traits
deriving DecidableEq

/-- Where a walk through the tokens of a header stands. -/
structure Walk where
  /-- The number of open brackets, negative after too many closing ones. -/
  depth : Int
  group : Option Group
  /-- Where a new list would go, once the name has been met. -/
  spot : Option UInt32

/-- What a walk through some tokens ends with. -/
inductive Walked where
  /-- The trait list ends at the offset. -/
  | listEnd (offset : UInt32)
  /-- No trait list has ended yet. -/
  | onward (walk : Walk)

/-- Walks through the tokens of a header line that starts at `start`, up to a colon outside all
brackets. -/
def walkLine (name : Text) (start : UInt32) (w : Walk) : List Token → Walked
  | [] => .onward w
  | t :: ts =>
    let offset := start + t.column
    if w.spot.isNone then
      if t.isIdent name then
        walkLine name start { w with spot := some (offset + t.text.length.toUInt32) } ts
      else walkLine name start w ts
    else if t.isOpener then
      let group :=
        if w.depth = 0 then some (if t.isPunct "[" then Group.parameters else .traits) else w.group
      walkLine name start { w with depth := w.depth + 1, group } ts
    else if t.isCloser then
      if w.depth = 1 then
        match w.group with
        | some .traits => .listEnd offset
        | some .parameters =>
          walkLine name start { w with depth := 0, group := none, spot := some (offset + 1) } ts
        | none => walkLine name start { w with depth := 0 } ts
      else walkLine name start { w with depth := w.depth - 1 } ts
    else if w.depth = 0 && t.isPunct ":" then .onward w
    else walkLine name start w ts

/-- Walks through the lines of a header. -/
def walkRows (name : Text) (w : Walk) : List Row → Walked
  | [] => .onward w
  | r :: rs =>
    match walkLine name r.offset w r.tokens with
    | .listEnd offset => .listEnd offset
    | .onward next => walkRows name next rs

/-- The edit that declares `traits` for a struct. -/
def insertion (source : Source) (struct : Struct) (traits : Text) : Edit :=
  let last := (Block.headerEnd? source.lines struct.header).getD struct.header
  let note := "Declare " ++ traits
  match walkRows struct.name ⟨0, none, none⟩ (source.slice struct.header (last + 1)) with
  | .listEnd offset =>
    let separator : Text := if struct.traits.isEmpty then [] else ", "
    ⟨source.path, offset, 0, separator ++ traits, note⟩
  | .onward w =>
    ⟨source.path, w.spot.getD (source.offsetOf struct.header), 0, "(" ++ traits ++ ")", note⟩

end MojoLint.Traits
