import MojoLint.Finding.Basic
import MojoLint.Source.Basic

/-!
# GPU rules

Device code uses the current methods of the device context, kernel code needs such a context, and
output is not labelled as simulated.
-/

namespace MojoLint.Rule.Gpu

/-- The retired methods of the device context, each with the one to call instead. -/
def retiredMethods : List (Text × Text) :=
  [("create_buffer", "enqueue_create_buffer"),
   ("create_buffer_sync", "enqueue_create_buffer"),
   ("copy_to_device", "enqueue_copy"),
   ("copy_from_device", "enqueue_copy"),
   ("enqueue_copy_to_device", "enqueue_copy"),
   ("enqueue_copy_from_device", "enqueue_copy")]

/-- The identifiers that only kernel code uses. -/
def kernelIndicators : List Text :=
  ["thread_idx", "block_idx", "block_dim", "global_idx", "grid_dim"]

/-- Whether a token marks kernel code. -/
def isKernelIndicator (t : Token) : Bool := t.kind == .ident && kernelIndicators.contains t.text

/-- The words that label output as not real. -/
def simulationLabels : List Text := ["SIMULATED", "SIMULATION", "PLACEHOLDER", "MOCK"]

/-- The calls whose argument is looked for and not put out. -/
def searchCalls : List Text := ["find", "count", "startswith", "endswith", "contains"]

/-- Whether a token names a call that looks for its argument. -/
def isSearchCall (t : Token) : Bool := t.kind == .ident && searchCalls.contains t.text

/-- Whether a token compares for equality. -/
def isComparison (t : Token) : Bool := t.isPunct "==" || t.isPunct "!="

/-- A token of a line with the tokens before it, nearest first, and the tokens after it. -/
structure Site where
  before : List Token
  token : Token
  after : List Token

/-- The sites of the tokens `after`, which follow the tokens `before`. -/
def sites (before : List Token) : List Token → List Site
  | [] => []
  | t :: after => ⟨before, t, after⟩ :: sites (t :: before) after

namespace Site

/-- Whether the token is a method that is called: a dot stands before it, and a parenthesis or a
square bracket behind it. -/
def isCalled (s : Site) : Bool :=
  s.token.kind == .ident && s.before.head?.any (·.isPunct ".") && s.after.head?.any Token.isOpener

/-- The retired method that is called here and its replacement. -/
def retired? (s : Site) : Option (Text × Text) :=
  if s.isCalled then retiredMethods.find? (·.1 == s.token.text) else none

/-- Whether the string is only looked for: by the `in` operator, as the argument of a search, or
in a comparison. -/
def isSought (s : Site) : Bool :=
  s.after.head?.any (·.isIdent "in") ||
  (match s.before with
    | bracket :: call :: _ => bracket.isPunct "(" && isSearchCall call
    | _ => false) ||
  s.before.any isComparison || s.after.any isComparison

/-- Whether the token is a string that labels output as simulated. A string that stands alone on
its line or was opened on an earlier one is documentation. -/
def isSimulationLabel (s : Site) : Bool :=
  s.token.isString &&
  simulationLabels.any (Text.contains s.token.contents) &&
  !(s.before.isEmpty && s.after.isEmpty) &&
  s.token.kind != .string .continued &&
  !s.isSought

end Site

/-- The finding for a retired method. -/
def retiredFinding (s : Source) (i : Nat) (retired current : Text) : Finding :=
  Finding.onLine "GPU_RETIRED_API" .gpuPattern .error s.path i
    ("DeviceContext method '" ++ retired ++ "' has been retired")
    ("Call '" ++ current ++ "' instead") []

/-- The finding for kernel code without a device context. -/
def contextFinding (s : Source) (i : Nat) (indicator : Text) : Finding :=
  Finding.onLine "GPU_MISSING_CONTEXT" .gpuPattern .error s.path i
    ("GPU kernel code uses '" ++ indicator ++ "' but no DeviceContext is set up")
    "Create a DeviceContext and launch the kernel with enqueue_function" []

/-- The finding for output labelled as simulated. -/
def labelFinding (s : Source) (i : Nat) : Finding :=
  Finding.onLine "SIMULATION_LABEL" .gpuPattern .warning s.path i
    "Output is labelled as simulated or placeholder"
    "Run the real GPU path or remove the simulation label" []

/-- The findings at the sites of a line, and whether a missing device context is still to be
reported behind it. It is reported once, and nothing is reported behind a simulation label. -/
def siteFindings (s : Source) (i : Nat) (pending : Bool) : List Site → List Finding × Bool
  | [] => ([], pending)
  | site :: rest =>
    let retired := site.retired?.map fun (old, new) => retiredFinding s i old new
    let missing := pending && isKernelIndicator site.token
    let here := retired.toList ++ if missing then [contextFinding s i site.token.text] else []
    if site.isSimulationLabel then (here ++ [labelFinding s i], pending && !missing)
    else
      let (later, still) := siteFindings s i (pending && !missing) rest
      (here ++ later, still)

/-- The findings on the rows, where `pending` says whether a missing device context is still to
be reported. -/
def rowFindings (s : Source) (pending : Bool) : List (Row × Nat) → List Finding
  | [] => []
  | (row, i) :: rest =>
    let (here, still) := siteFindings s i pending (sites [] row.codeTokens)
    here ++ rowFindings s still rest

/-- The findings about GPU code. -/
def findings (s : Source) : List Finding :=
  rowFindings s (!s.mentions "DeviceContext") s.visible

end MojoLint.Rule.Gpu
