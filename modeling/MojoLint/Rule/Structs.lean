import MojoLint.Traits.Findings

/-!
# Struct rules

Structs are named in PascalCase, the `@value` decorator is deprecated, and trivial lifecycle
methods give way to traits.
-/

namespace MojoLint.Rule.Structs

/-- Whether a name is in PascalCase: behind leading underscores an upper-case letter, and then
letters and digits only. -/
def isPascalCase (name : Text) : Bool :=
  let bare := name.dropWhile (· == Byte.underscore)
  bare.head?.any Byte.isUpper && bare.all Byte.isAlnum

/-- Whether the tokens are the deprecated decorator alone. -/
def isValueDecorator : List Token → Bool
  | [sign, name] => sign.isPunct "@" && name.isIdent "value"
  | _ => false

/-- The finding for the deprecated decorator. -/
def decoratorFinding (s : Source) (i : Nat) : Finding :=
  Finding.onLine "DEPRECATED_VALUE_DECORATOR" .structPattern .warning s.path i
    "The @value decorator is deprecated"
    "Use @fieldwise_init and declare Copyable / Movable explicitly" []

/-- The finding for a struct that is not named in PascalCase. -/
def namingFinding (s : Source) (i : Nat) (name : Text) : Finding :=
  Finding.onLine "STRUCT_NAMING" .structPattern .warning s.path i
    ("Struct name '" ++ name ++ "' is not PascalCase")
    "Rename the struct using PascalCase" []

/-- The findings about the traits of a struct. A struct without a body has none. -/
def traitFindings (s : Source) (lines : List Text) (struct : Struct) : List Finding :=
  match Block.at? lines struct.header with
  | some body =>
    if body.isEmpty then [] else Traits.findings s struct (Lifecycle.ofBlock lines body)
  | none => []

/-- The findings about the struct declared on a line. -/
def structFindings (s : Source) (lines : List Text) (struct : Struct) : List Finding :=
  (if isPascalCase struct.name then [] else [namingFinding s struct.header struct.name]) ++
    traitFindings s lines struct

/-- The findings on one line. -/
def lineFindings (s : Source) (lines : List Text) (row : Row) (i : Nat) : List Finding :=
  if isValueDecorator row.codeTokens then [decoratorFinding s i]
  else if row.closed ≠ 0 then []
  else
    match Struct.at? lines i with
    | some struct => structFindings s lines struct
    | none => []

/-- The findings about structs. -/
def findings (s : Source) : List Finding :=
  let lines := s.lines
  s.visible.flatMap fun (row, i) => lineFindings s lines row i

end MojoLint.Rule.Structs
