import MojoLint.Block.Body
import MojoLint.Lifecycle.SourceArgument

/-!
# Copy and move initialisers

A lifecycle method is trivial when it does what the compiler would do: it copies every field of
the source argument, or transfers it, and does nothing else.
-/

namespace MojoLint

/-- The two kinds of lifecycle methods. -/
inductive Lifecycle.Operation where
  | copy
  | move
deriving DecidableEq

/-- A lifecycle method of a struct. -/
structure Lifecycle.Method where
  /-- How many lines the method comes after the line of the struct. -/
  offset : Nat
  trivial : Bool
deriving DecidableEq

/-- The lifecycle methods of a struct. -/
structure Lifecycle where
  copy : Option Lifecycle.Method
  move : Option Lifecycle.Method
deriving DecidableEq

namespace Lifecycle

/-- The name of the method for an operation. -/
def Operation.method : Operation → Text
  | .copy => "__copyinit__"
  | .move => "__moveinit__"

/-- Whether the tokens end a field assignment as the operation asks: a move transfers with `^`. -/
def Operation.endsWith : Operation → List Token → Bool
  | .copy, [] => true
  | .move, [t] => t.isPunct "^"
  | _, _ => false

/-- The field `f` of the statement `self.f = src.f`, or `self.f = src.f^` for a move. -/
def assignedField? (op : Operation) (src : Text) (line : Text) : Option Text :=
  match Token.dropComment (Token.ofLine line) with
  | self :: dot :: field :: sign :: source :: point :: same :: rest =>
    if self.isIdent "self" && dot.isPunct "." && field.kind == .ident && sign.isPunct "=" &&
        source.isIdent src && point.isPunct "." && same.isIdent field.text && op.endsWith rest
    then some field.text
    else none
  | _ => none

/-- The fields that the lines assign, when every line is a field assignment. -/
def assignedFields? (op : Operation) (src : Text) : List Text → Option (List Text)
  | [] => some []
  | line :: rest =>
    match assignedField? op src line, assignedFields? op src rest with
    | some f, some fs => some (f :: fs)
    | _, _ => none

/-- Whether the assigned fields are distinct, at least one, and, when the fields of the struct are
known, exactly those. -/
def covers (assigned fields : List Text) : Bool :=
  decide assigned.Nodup && !assigned.isEmpty &&
    (fields.isEmpty || (assigned.all fields.contains && fields.all assigned.contains))

/-- Whether the body of a method only assigns fields from the source argument, each once, and
leaves out none of `fields`. -/
def isTrivial (lines : List Text) (method : Block) (op : Operation) (fields : List Text) : Bool :=
  let src := sourceArgument (Block.headerText lines method.header)
  match assignedFields? op src ((method.codeLines lines).map Prod.snd) with
  | some assigned => covers assigned fields
  | none => false

/-- The field declared by a line `var name: …`. -/
def declaredField? (line : Text) : Option Text :=
  match Token.dropComment (Token.ofLine line) with
  | keyword :: name :: colon :: _ =>
    if keyword.isIdent "var" && name.kind == .ident && colon.isPunct ":" then some name.text
    else none
  | _ => none

/-- The fields declared on the lines of a level. The level is a signed number: a negative one is
no level yet, and the next line sets it. -/
def fieldsAt (level : Int32) : List Text → List Text
  | [] => []
  | line :: rest =>
    let indent := (Line.indent line).toInt32
    let level := if level < 0 then indent else level
    if indent = level then (declaredField? line).toList ++ fieldsAt level rest
    else fieldsAt level rest

/-- The fields declared directly in the body of a struct: on code lines that are indented as far
as the first one. -/
def fields (lines : List Text) (struct : Block) : List Text :=
  fieldsAt (-1) ((struct.codeLines lines).map Prod.snd)

/-- Whether a line declares the method for an operation. -/
def declares (op : Operation) (line : Text) : Bool :=
  match Token.dropComment (Token.ofLine line) with
  | keyword :: name :: _ => keyword.isIdent "fn" && name.isIdent op.method
  | _ => false

/-- The first method of a struct for an operation. -/
def method? (lines : List Text) (struct : Block) (op : Operation) : Option Method :=
  ((struct.codeLines lines).find? fun (_, line) => declares op line).map fun (i, _) =>
    { offset := i - struct.header
      trivial := (Block.at? lines i).any fun m => isTrivial lines m op (fields lines struct) }

/-- The lifecycle methods of the struct with the given body. -/
def ofBlock (lines : List Text) (struct : Block) : Lifecycle :=
  ⟨method? lines struct .copy, method? lines struct .move⟩

/-- Whether the struct has a trivial method for copying. -/
def trivialCopy (l : Lifecycle) : Bool := l.copy.any Method.trivial

/-- Whether the struct has a trivial method for moving. -/
def trivialMove (l : Lifecycle) : Bool := l.move.any Method.trivial

/-- Whether the struct copies in a way of its own. -/
def customCopy (l : Lifecycle) : Bool := l.copy.any (!·.trivial)

/-- Whether the struct moves in a way of its own. -/
def customMove (l : Lifecycle) : Bool := l.move.any (!·.trivial)

end Lifecycle

end MojoLint
