import MojoLint.Rule.Gpu
import MojoLint.Source.Blocks

/-!
# Memory rules

A function that takes ownership of a raw pointer frees memory, and memory that a function
allocates is freed, returned or stored. Kernels are left alone: they own no memory.
-/

namespace MojoLint.Rule.Memory

open Declaration (pushLast)

/-- Splits header tokens into parameters, where `depth` brackets are open and `params` have been
read. Parameters start with the first parenthesis outside all brackets, are separated by commas
outside inner brackets, and end where that parenthesis is closed. -/
def parameters (depth : Int) (params : Option (List (List Token))) :
    List Token → List (List Token)
  | [] => params.getD []
  | t :: ts =>
    match params with
    | none =>
      if t.isOpener then
        parameters (depth + 1) (if depth = 0 && t.isPunct "(" then some [[]] else none) ts
      else parameters (if t.isCloser then depth - 1 else depth) none ts
    | some ps =>
      if t.isOpener then parameters (depth + 1) (some (pushLast t ps)) ts
      else if t.isCloser then
        if depth = 1 then ps else parameters (depth - 1) (some (pushLast t ps)) ts
      else if depth = 1 && t.isPunct "," then parameters depth (some (ps ++ [[]])) ts
      else parameters depth (some (pushLast t ps)) ts

/-- A parameter that is a raw pointer. -/
structure PointerParameter where
  name : Text
  /-- The function takes ownership of what the pointer refers to. -/
  owned : Bool
deriving DecidableEq

/-- The first identifier that is followed by a colon. -/
def nameBeforeColon : List Token → Text
  | t :: next :: rest =>
    if next.isPunct ":" && t.kind == .ident then t.text else nameBeforeColon (next :: rest)
  | _ => []

/-- A parameter as a raw pointer, if its tokens mention that type. -/
def PointerParameter.ofTokens? (tokens : List Token) : Option PointerParameter :=
  if tokens.any (·.isIdent "UnsafePointer") then
    some ⟨nameBeforeColon tokens, tokens.head?.any (·.isIdent "owned")⟩
  else none

/-- The raw pointers among the parameters of a header. -/
def pointerParameters (header : Text) : List PointerParameter :=
  (parameters 0 none (Token.ofLine header)).filterMap PointerParameter.ofTokens?

/-- Whether `.free(` stands among the tokens, after the identifier `receiver` if one is given. The
two tokens before them are `second` and, nearer, `prev`. -/
def freesAmong (receiver : Option Text) (second prev : Option Token) : List Token → Bool
  | [] => false
  | t :: rest =>
    (t.isIdent "free" && prev.any (·.isPunct ".") && rest.head?.any (·.isPunct "(") &&
      match receiver with
      | some name => second.any (·.isIdent name)
      | none => true) ||
    freesAmong receiver prev (some t) rest

/-- Whether a body frees memory, or the memory of `receiver` if one is given. -/
def frees (s : Source) (body : Block) (receiver : Option Text) : Bool :=
  Source.anyVisible (s.bodyRows body) fun r => freesAmong receiver none none r.tokens

/-- Whether a line lets the pointer `name` leave its function: by returning it or by storing
something about it in `self`. -/
def letsEscape (name : Text) (tokens : List Token) : Bool :=
  tokens.any (·.isIdent name) &&
    match tokens with
    | first :: rest =>
      first.isIdent "return" || (first.isIdent "self" && rest.head?.any (·.isPunct "."))
    | [] => false

/-- Whether the pointer `name` that line `i` of a body allocates is freed in the body or leaves
the function on a later line. -/
def escapes (s : Source) (body : Block) (i : Nat) (name : Text) : Bool :=
  frees s body (some name) ||
    Source.anyVisible (s.slice (i + 1) body.stop) fun r => letsEscape name r.codeTokens

/-- Whether `.alloc(` stands among the tokens, which follow the token `prev`. -/
def allocatesAmong (prev : Token) : List Token → Bool
  | [] => false
  | t :: rest =>
    (t.isIdent "alloc" && prev.isPunct "." && rest.head?.any (·.isPunct "(")) ||
      allocatesAmong t rest

/-- The variable that a line declares with freshly allocated memory. -/
def allocated? : List Token → Option Text
  | keyword :: name :: rest =>
    if keyword.isIdent "var" && name.kind == .ident && 2 ≤ rest.length &&
        allocatesAmong keyword (name :: rest)
    then some name.text
    else none
  | _ => none

/-- Whether a body is kernel code. -/
def isKernel (s : Source) (body : Block) : Bool :=
  Source.anyVisible (s.bodyRows body) fun r => r.tokens.any Gpu.isKernelIndicator

/-- The finding for an owned pointer in a function that frees nothing. -/
def leakFinding (s : Source) (f : Function) (p : PointerParameter) : Finding :=
  Finding.onLine "POSSIBLE_LEAK" .memoryManagement .warning s.path f.block.header
    ("Function '" ++ f.name ++ "' takes ownership of pointer '" ++ p.name ++
      "' but never frees memory")
    "Call free() on the pointer or take it by reference instead of owned" []

/-- The findings about the pointers that a function takes. -/
def leakFindings (s : Source) (lines : List Text) (f : Function) : List Finding :=
  if frees s f.block none then []
  else
    ((pointerParameters (Block.headerText lines f.block.header)).filter PointerParameter.owned).map
      (leakFinding s f)

/-- The finding for memory that the variable `name` on line `i` keeps to itself. -/
def allocFinding (s : Source) (i : Nat) (name : Text) : Finding :=
  Finding.onLine "ALLOC_WITHOUT_FREE" .memoryManagement .observation s.path i
    ("Pointer '" ++ name ++ "' is allocated but never freed, returned or stored")
    "Free the allocation before the function returns" []

/-- The findings about the memory that a function allocates. -/
def allocFindings (s : Source) (body : Block) : List Finding :=
  ((s.bodyRows body).zipIdx body.first).filterMap fun (row, i) =>
    if row.excluded then none
    else
      (allocated? row.codeTokens).bind fun name =>
        if escapes s body i name then none else some (allocFinding s i name)

/-- The findings about memory. -/
def findings (s : Source) : List Finding :=
  let lines := s.lines
  s.functions.flatMap fun f =>
    if isKernel s f.block then [] else leakFindings s lines f ++ allocFindings s f.block

end MojoLint.Rule.Memory
