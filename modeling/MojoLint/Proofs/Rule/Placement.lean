import MojoLint.Checker

/-!
# Offsets only place edits

The rules see where the rows of a file start, and they may use it for one thing: to say where an
edit applies. `Source.unplaced` takes the offsets out of a file and `Finding.unplaced` takes them
out of a finding. Every family finds the same in a file and in its unplaced form, once the findings
are unplaced as well (`Rule.Family.findings_unplaced`).

Four families make no edits and find exactly the same. Of the other four only the walk through a
struct header computes with offsets before it decides; it decides by brackets alone
(`Traits.walkRows_unplaced`).
-/

namespace MojoLint

/-- The edit without the range it applies to. -/
def Edit.unplaced (e : Edit) : Edit := { e with offset := 0, length := 0 }

/-- The finding without the ranges of its edits. -/
def Finding.unplaced (f : Finding) : Finding := { f with edits := f.edits.map Edit.unplaced }

/-- The row without its offset. -/
def Row.unplaced (r : Row) : Row := { r with offset := 0 }

/-- The file without the offsets of its rows. Of the text it keeps only whether it ends in a line
feed. -/
def Source.unplaced (s : Source) : Source where
  path := s.path
  text := if Text.endsWith s.text "\n" then "\n" else []
  rows := s.rows.map Row.unplaced
  eof := 0

theorem Finding.unplaced_onLine (id : Text) (category : Category) (severity : Severity)
    (file : Text) (line : Nat) (description suggestion : Text) (edits : List Edit) :
    (onLine id category severity file line description suggestion edits).unplaced =
      onLine id category severity file line description suggestion (edits.map Edit.unplaced) :=
  rfl

/-! ## Rows -/

namespace Source

variable (s : Source)

theorem lines_unplaced : s.unplaced.lines = s.lines := by
  unfold lines unplaced
  rw [List.map_map]
  rfl

theorem getElem?_rows_unplaced (i : Nat) :
    s.unplaced.rows[i]? = (s.rows[i]?).map Row.unplaced := List.getElem?_map

theorem slice_unplaced (first stop : Nat) :
    s.unplaced.slice first stop = (s.slice first stop).map Row.unplaced := by
  simp only [slice, unplaced, List.map_take, List.map_drop]

theorem zipIdx_unplaced (rows : List Row) (i : Nat) :
    (rows.map Row.unplaced).zipIdx i = (rows.zipIdx i).map (Prod.map Row.unplaced id) := by
  rw [List.zipIdx_map]

theorem visible_unplaced : s.unplaced.visible = s.visible.map (Prod.map Row.unplaced id) := by
  simp only [visible, unplaced, zipIdx_unplaced, List.filter_map]
  rfl

theorem anyVisible_unplaced (rows : List Row) (p : Row → Bool) :
    anyVisible (rows.map Row.unplaced) p = anyVisible rows fun r => p r.unplaced := by
  simp only [anyVisible, List.any_map]
  rfl

theorem mentions_unplaced (name : Text) : s.unplaced.mentions name = s.mentions name :=
  anyVisible_unplaced s.rows _

theorem loops_unplaced : s.unplaced.loops = s.loops := by
  simp only [loops, lines_unplaced, visible_unplaced, List.filterMap_map]
  rfl

theorem functions_unplaced : s.unplaced.functions = s.functions := by
  have hrows : s.unplaced.rows.zipIdx = s.rows.zipIdx.map (Prod.map Row.unplaced id) :=
    zipIdx_unplaced s.rows 0
  simp only [functions, lines_unplaced, hrows, List.filterMap_map]
  rfl

theorem endsWith_unplaced : Text.endsWith s.unplaced.text "\n" = Text.endsWith s.text "\n" := by
  unfold unplaced
  cases Text.endsWith s.text "\n" <;> rfl

end Source

/-! ## Families without edits -/

namespace Rule

variable (s : Source)

theorem Errors.findings_unplaced : Errors.findings s.unplaced = Errors.findings s := by
  simp only [Errors.findings, Source.visible_unplaced, List.flatMap_map]
  rfl

theorem Performance.findings_unplaced :
    Performance.findings s.unplaced = Performance.findings s := by
  simp only [Performance.findings, Source.visible_unplaced, Source.loops_unplaced,
    List.flatMap_map]
  rfl

theorem Gpu.siteFindings_unplaced (i : Nat) (pending : Bool) (sites : List Site) :
    siteFindings s.unplaced i pending sites = siteFindings s i pending sites := by
  induction sites generalizing pending with
  | nil => rfl
  | cons site rest ih =>
    rw [siteFindings, siteFindings, ih]
    rfl

theorem Gpu.rowFindings_unplaced (pending : Bool) (rows : List (Row × Nat)) :
    rowFindings s.unplaced pending (rows.map (Prod.map Row.unplaced id)) =
      rowFindings s pending rows := by
  induction rows generalizing pending with
  | nil => rfl
  | cons first rest ih =>
    obtain ⟨row, i⟩ := first
    simp only [List.map_cons, Prod.map, rowFindings, ih, siteFindings_unplaced]
    rfl

theorem Gpu.findings_unplaced : Gpu.findings s.unplaced = Gpu.findings s := by
  unfold Gpu.findings
  rw [Source.visible_unplaced, rowFindings_unplaced, Source.mentions_unplaced]

theorem Memory.frees_unplaced (body : Block) (receiver : Option Text) :
    frees s.unplaced body receiver = frees s body receiver := by
  rw [frees, frees, Source.bodyRows, Source.slice_unplaced, Source.anyVisible_unplaced]
  rfl

theorem Memory.escapes_unplaced (body : Block) (i : Nat) (name : Text) :
    escapes s.unplaced body i name = escapes s body i name := by
  rw [escapes, escapes, frees_unplaced, Source.slice_unplaced, Source.anyVisible_unplaced]
  rfl

theorem Memory.isKernel_unplaced (body : Block) : isKernel s.unplaced body = isKernel s body := by
  rw [isKernel, isKernel, Source.bodyRows, Source.slice_unplaced, Source.anyVisible_unplaced]
  rfl

theorem Memory.leakFindings_unplaced (lines : List Text) (f : Function) :
    leakFindings s.unplaced lines f = leakFindings s lines f := by
  rw [leakFindings, leakFindings, frees_unplaced]
  rfl

theorem Memory.allocFindings_unplaced (body : Block) :
    allocFindings s.unplaced body = allocFindings s body := by
  simp only [allocFindings, Source.bodyRows, Source.slice_unplaced, Source.zipIdx_unplaced,
    List.filterMap_map, escapes_unplaced]
  rfl

theorem Memory.findings_unplaced : Memory.findings s.unplaced = Memory.findings s := by
  simp only [Memory.findings, Source.lines_unplaced, Source.functions_unplaced, isKernel_unplaced,
    leakFindings_unplaced, allocFindings_unplaced]

/-! ## Families with edits -/

theorem Imports.firstLocal?_unplaced : firstLocal? s.unplaced = firstLocal? s := by
  simp only [firstLocal?, Source.visible_unplaced, List.find?_map, Option.map_map]
  rfl

theorem Imports.relativeFinding_unplaced (row : Row) (i : Nat) (tail : List Token) :
    (relativeFinding s.unplaced row.unplaced i tail).unplaced =
      (relativeFinding s row i tail).unplaced := by
  simp only [relativeFinding, Finding.unplaced_onLine]
  congr 1
  split <;> rfl

theorem Imports.lineFindings_unplaced (first : Option Nat) (row : Row) (i : Nat) :
    (lineFindings s.unplaced first row.unplaced i).map Finding.unplaced =
      (lineFindings s first row i).map Finding.unplaced := by
  have htokens : row.unplaced.codeTokens = row.codeTokens := rfl
  unfold lineFindings
  rw [htokens]
  simp only
  split
  · rw [List.map_singleton, List.map_singleton, relativeFinding_unplaced]
  · rfl
  · rfl

theorem Imports.findings_unplaced :
    (Imports.findings s.unplaced).map Finding.unplaced =
      (Imports.findings s).map Finding.unplaced := by
  simp only [Imports.findings, Source.visible_unplaced, firstLocal?_unplaced, List.flatMap_map,
    List.map_flatMap]
  congr 1
  funext rowAt
  exact lineFindings_unplaced s _ rowAt.1 rowAt.2

theorem Variables.letFindings_unplaced (row : Row) (i : Nat) :
    (letFindings s.unplaced row.unplaced i).map Finding.unplaced =
      (letFindings s row i).map Finding.unplaced := by
  have htokens : row.unplaced.codeTokens = row.codeTokens := rfl
  unfold letFindings
  rw [htokens]
  simp only
  split <;> rfl

theorem Variables.headerFindings_unplaced (lines : List Text) (row : Row) (i : Nat) :
    headerFindings s.unplaced lines row.unplaced i = headerFindings s lines row i := by
  simp only [headerFindings, Source.slice_unplaced, Source.zipIdx_unplaced, List.flatMap_map]
  rfl

theorem Variables.findings_unplaced :
    (Variables.findings s.unplaced).map Finding.unplaced =
      (Variables.findings s).map Finding.unplaced := by
  simp only [Variables.findings, Source.visible_unplaced, Source.lines_unplaced, List.flatMap_map,
    List.map_flatMap, List.map_append, Prod.map, headerFindings_unplaced, letFindings_unplaced]
  rfl

end Rule

namespace Traits

/-- Two walks agree on everything but the place of a new list. -/
def Walk.Alike (v w : Walk) : Prop :=
  v.depth = w.depth ∧ v.group = w.group ∧ v.spot.isSome = w.spot.isSome

/-- Two walks through the same tokens end in the same way. -/
inductive Walked.Alike : Walked → Walked → Prop
  | listEnd (a b : UInt32) : Alike (.listEnd a) (.listEnd b)
  | onward {v w : Walk} : v.Alike w → Alike (.onward v) (.onward w)

theorem walkLine_alike (name : Text) (start start' : UInt32) (ts : List Token) {v w : Walk}
    (h : v.Alike w) : (walkLine name start v ts).Alike (walkLine name start' w ts) := by
  induction ts generalizing v w with
  | nil => exact .onward h
  | cons t ts ih =>
    obtain ⟨hdepth, hgroup, hspot⟩ := h
    have hnone : v.spot.isNone = w.spot.isNone := by
      rw [← Option.not_isSome, ← Option.not_isSome, hspot]
    unfold walkLine
    simp only [hnone, hdepth, hgroup]
    split
    · split
      · exact ih ⟨rfl, rfl, rfl⟩
      · exact ih ⟨hdepth, hgroup, hspot⟩
    · split
      · exact ih ⟨rfl, rfl, hspot⟩
      · split
        · split
          · split
            · exact .listEnd _ _
            · exact ih ⟨rfl, rfl, rfl⟩
            · exact ih ⟨rfl, rfl, hspot⟩
          · exact ih ⟨rfl, rfl, hspot⟩
        · split
          · exact .onward ⟨hdepth, hgroup, hspot⟩
          · exact ih ⟨hdepth, hgroup, hspot⟩

theorem walkRows_unplaced (name : Text) (rows : List Row) {v w : Walk} (h : v.Alike w) :
    (walkRows name v (rows.map Row.unplaced)).Alike (walkRows name w rows) := by
  induction rows generalizing v w with
  | nil => exact .onward h
  | cons r rs ih =>
    have hline := walkLine_alike name r.unplaced.offset r.offset r.tokens h
    have htokens : r.unplaced.tokens = r.tokens := rfl
    rw [List.map_cons, walkRows, walkRows, htokens]
    cases hv : walkLine name r.unplaced.offset v r.tokens <;>
      cases hw : walkLine name r.offset w r.tokens <;> rw [hv, hw] at hline <;> cases hline
    · exact .listEnd _ _
    · rename_i hnext
      exact ih hnext

theorem insertion_unplaced (s : Source) (struct : Struct) (traits : Text) :
    (insertion s.unplaced struct traits).unplaced = (insertion s struct traits).unplaced := by
  simp only [insertion, Source.lines_unplaced, Source.slice_unplaced]
  have hwalk := walkRows_unplaced struct.name
    (s.slice struct.header ((Block.headerEnd? s.lines struct.header).getD struct.header + 1))
    (v := ⟨0, none, none⟩) (w := ⟨0, none, none⟩) ⟨rfl, rfl, rfl⟩
  revert hwalk
  generalize walkRows _ _ (List.map _ _) = a
  generalize walkRows _ _ (s.slice _ _) = b
  intro hwalk
  cases hwalk <;> rfl

theorem removal_unplaced (s : Source) (method : Nat) (name : Text) :
    (removal s.unplaced method name).unplaced = (removal s method name).unplaced := rfl

theorem findings_unplaced (s : Source) (struct : Struct) (lifecycle : Lifecycle) :
    (findings s.unplaced struct lifecycle).map Finding.unplaced =
      (findings s struct lifecycle).map Finding.unplaced := by
  simp only [findings, List.map_append, apply_ite (List.map Finding.unplaced), List.map_cons,
    List.map_nil, finding, Finding.unplaced_onLine, removal_unplaced, insertion_unplaced]
  rfl

end Traits

namespace Rule

variable (s : Source)

theorem Structs.lineFindings_unplaced (lines : List Text) (row : Row) (i : Nat) :
    (lineFindings s.unplaced lines row.unplaced i).map Finding.unplaced =
      (lineFindings s lines row i).map Finding.unplaced := by
  have htraits : ∀ struct, (traitFindings s.unplaced lines struct).map Finding.unplaced =
      (traitFindings s lines struct).map Finding.unplaced := by
    intro struct
    unfold traitFindings
    split
    · split
      · rfl
      · exact Traits.findings_unplaced s struct _
    · rfl
  have htokens : row.unplaced.codeTokens = row.codeTokens := rfl
  have hclosed : row.unplaced.closed = row.closed := rfl
  unfold lineFindings
  rw [htokens, hclosed]
  split
  · rfl
  · split
    · rfl
    · split
      · simp only [structFindings, List.map_append, htraits]
        rfl
      · rfl

theorem Structs.findings_unplaced :
    (Structs.findings s.unplaced).map Finding.unplaced =
      (Structs.findings s).map Finding.unplaced := by
  simp only [Structs.findings, Source.visible_unplaced, Source.lines_unplaced, List.flatMap_map,
    List.map_flatMap]
  congr 1
  funext rowAt
  exact lineFindings_unplaced s _ rowAt.1 rowAt.2

theorem Docs.stubEdits_unplaced (lines : List Text) (headerEnd : Nat) (stub : Option Text) :
    (stubEdits s.unplaced lines headerEnd stub).map Edit.unplaced =
      (stubEdits s lines headerEnd stub).map Edit.unplaced := by
  unfold stubEdits
  rw [Source.endsWith_unplaced]
  cases stub <;> rfl

theorem Docs.missingFinding_unplaced (lines : List Text) (i headerEnd : Nat) (indent : UInt32)
    (owner : Owner) :
    (missingFinding s.unplaced lines i headerEnd indent owner).unplaced =
      (missingFinding s lines i headerEnd indent owner).unplaced := by
  cases owner <;> simp only [missingFinding, Finding.unplaced_onLine, stubEdits_unplaced] <;> rfl

theorem Docs.ownerFindings_unplaced (lines : List Text) (i headerEnd : Nat) (owner : Owner) :
    (ownerFindings s.unplaced lines i headerEnd owner).map Finding.unplaced =
      (ownerFindings s lines i headerEnd owner).map Finding.unplaced := by
  unfold ownerFindings
  simp only
  split
  · split
    · split
      · rfl
      · simp only [List.map_cons, List.map_nil, missingFinding_unplaced]
    · simp only [List.map_cons, List.map_nil, missingFinding_unplaced]
  · simp only [List.map_cons, List.map_nil, missingFinding_unplaced]

theorem Docs.lineFindings_unplaced (lines : List Text) (i : Nat) :
    (lineFindings s.unplaced lines i).map Finding.unplaced =
      (lineFindings s lines i).map Finding.unplaced := by
  unfold lineFindings
  split
  · rw [Source.getElem?_rows_unplaced, Option.any_map]
    simp only [apply_ite (List.map Finding.unplaced), ownerFindings_unplaced]
    rfl
  · rfl

theorem Docs.findings_unplaced :
    (Docs.findings s.unplaced).map Finding.unplaced = (Docs.findings s).map Finding.unplaced := by
  have hrows : s.unplaced.rows.zipIdx = s.rows.zipIdx.map (Prod.map Row.unplaced id) :=
    Source.zipIdx_unplaced s.rows 0
  simp only [Docs.findings, Source.lines_unplaced, hrows, List.flatMap_map, List.map_flatMap,
    apply_ite (List.map Finding.unplaced), lineFindings_unplaced]
  rfl

/-- **Offsets only place edits.** Every family finds the same in a file without offsets, but for
the ranges of its edits. -/
theorem Family.findings_unplaced (f : Family) :
    (f.findings s.unplaced).map Finding.unplaced = (f.findings s).map Finding.unplaced := by
  cases f with
  | imports => exact Imports.findings_unplaced s
  | structs => exact Structs.findings_unplaced s
  | «variables» => exact Variables.findings_unplaced s
  | docs => exact Docs.findings_unplaced s
  | gpu => exact congrArg (List.map Finding.unplaced) (Gpu.findings_unplaced s)
  | errors => exact congrArg (List.map Finding.unplaced) (Errors.findings_unplaced s)
  | performance => exact congrArg (List.map Finding.unplaced) (Performance.findings_unplaced s)
  | memory => exact congrArg (List.map Finding.unplaced) (Memory.findings_unplaced s)

end Rule

theorem Checker.allFindings_unplaced (s : Source) :
    (allFindings s.unplaced).map Finding.unplaced = (allFindings s).map Finding.unplaced := by
  simp only [allFindings, List.map_flatMap, Rule.Family.findings_unplaced]

end MojoLint
