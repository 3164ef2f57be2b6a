import MojoLint.Proofs.Rule.Bindings

/-!
# All bindings at once

The edits of the bindings of a file are on different lines, so all of them are carried out
together. The rewritten lines have their delimiters where they had them, and so the pass over the
lines excludes what it excluded before; on no line that is left a binding starts.
-/

namespace MojoLint

namespace Source

/-! ## The rows, line by line -/

/-- The rows of lines that start at `pos`, where the pass over the lines stands in `state`. -/
def rowsFrom (checkDocs : Bool) (pos : Nat) (state : Exclusion.State) : List Line → List Row
  | [] => []
  | l :: ls =>
    rowOf checkDocs l.text pos.toUInt32 (state.flags l.text) ::
      rowsFrom checkDocs (pos + l.size) (state.next l.text) ls

theorem rows_ofText (path text : Text) (checkDocs : Bool) :
    (ofText path text checkDocs).rows =
      rowsFrom checkDocs 0 Exclusion.State.start (Line.split text) := by
  have hrows : ∀ (ls : List Line) (pos : Nat) (state : Exclusion.State),
      List.zipWith (fun line f => rowOf checkDocs line.1 line.2 f)
        ((ls.map Line.text).zip (Line.starts pos ls)) (state.run (ls.map Line.text)) =
      rowsFrom checkDocs pos state ls := by
    intro ls
    induction ls with
    | nil => exact fun _ _ => rfl
    | cons l ls ih =>
      intro pos state
      exact congrArg (_ :: ·) (ih (pos + l.size) (state.next l.text))
  exact hrows (Line.split text) 0 Exclusion.State.start

/-- What the exclusion of lines makes of a row. -/
def exclusionOf (row : Row) : Bool × UInt32 := (row.excluded, row.closed)

end Source

namespace Rule.Variables

open Source (rowsFrom rowOf exclusionOf)

/-- Whether a finding is about a `let` binding. -/
def isLetReport (f : Finding) : Bool := f.id == Text.ofString "LET_BINDING"

/-- The edits of all `let` bindings, in the order of their reports. -/
def letEdits (s : Source) : List Edit := ((findings s).filter isLetReport).flatMap Finding.edits

/-- Whether a binding is reported on the row. -/
def showsBinding (row : Row) : Bool := !row.excluded && isLetBinding row.codeTokens

/-- The edit of the binding that is reported on the row, if there is one. -/
def editsOn (s : Source) (row : Row) : List Edit :=
  if showsBinding row then [letEdit s row (columnOf row)] else []

theorem filter_headerFindings (s : Source) (lines : List Text) (row : Row) (i : Nat) :
    (headerFindings s lines row i).filter isLetReport = [] := by
  have hother :
      (Text.ofString "DEPRECATED_ARG_CONVENTION" == Text.ofString "LET_BINDING") = false := by
    decide
  rw [List.filter_eq_nil_iff]
  intro f hf
  rw [isLetReport, (of_mem_headerFindings hf).1, hother]
  exact Bool.false_ne_true

theorem filter_letFindings (s : Source) (row : Row) (i : Nat) :
    ((letFindings s row i).filter isLetReport).flatMap Finding.edits =
      if isLetBinding row.codeTokens then [letEdit s row (columnOf row)] else [] := by
  unfold letFindings
  simp only
  split
  · have hreport : ∀ column, isLetReport (letFinding s row i column) = true := fun _ =>
      beq_self_eq_true (Text.ofString "LET_BINDING")
    rw [List.filter_cons_of_pos (hreport _)]
    rfl
  · rfl

theorem flatMap_filter_zipIdx {α β : Type} (p : α → Bool) (g : α → List β) (xs : List α) (n : Nat) :
    ((xs.zipIdx n).filter fun (x, _) => p x).flatMap (fun (x, _) => g x) =
      xs.flatMap fun x => if p x then g x else [] := by
  induction xs generalizing n with
  | nil => rfl
  | cons x xs ih =>
    rw [List.zipIdx_cons, List.filter_cons, List.flatMap_cons, ← ih (n + 1)]
    cases hp : p x <;> simp [hp]

theorem letEdits_eq (s : Source) : letEdits s = s.rows.flatMap (editsOn s) := by
  rw [letEdits, findings]
  simp only [List.filter_flatMap, List.filter_append, filter_headerFindings, List.append_nil,
    List.flatMap_assoc, filter_letFindings]
  refine (flatMap_filter_zipIdx (fun row => !row.excluded)
    (fun row => if isLetBinding row.codeTokens then [letEdit s row (columnOf row)] else [])
    s.rows 0).trans ?_
  congr 1
  funext row
  unfold editsOn showsBinding
  cases row.excluded <;> rfl

/-! ## Lines behind the rewriting -/

/-- A line that starts with another word starts no binding. -/
theorem not_isLetBinding_of_var {before rest : Text} (hgap : ∀ b ∈ before, Byte.isGap b = true)
    (closed : Nat) :
    isLetBinding (Token.dropComment
      (Token.ofClosingLine (before ++ "var" ++ rest) closed)) = false := by
  have hfirst : ∃ t ts, Token.ofClosingLine (before ++ "var" ++ rest) closed = t :: ts ∧
      t.isIdent "let" = false := by
    unfold Token.ofClosingLine
    split
    · obtain ⟨pos, hscan⟩ :=
        Token.scan_long_name_append (0 + before.length) isName_var (by decide) rest
      rw [Token.ofLine, List.append_assoc, Token.scan_gaps 0 hgap, hscan]
      refine ⟨_, _, rfl, ?_⟩
      show (Text.ofString "var" ++ _ == Text.ofString "let") = false
      rw [beq_eq_false_iff_ne]
      intro heq
      cases (List.cons_eq_cons.1 heq).1
    · exact ⟨_, _, rfl, rfl⟩
  obtain ⟨t, ts, htokens, ht⟩ := hfirst
  obtain ⟨us, hus⟩ := Token.exists_append_dropComment
    (Token.ofClosingLine (before ++ "var" ++ rest) closed)
  unfold isLetBinding
  split
  · rename_i keyword next ts' hcode
    rw [hcode, htokens] at hus
    cases hus
    rw [ht, Bool.false_and]
  · rfl

section

variable {s : Source} {checkDocs : Bool}

/-- One line, and what the rewriting makes of it. -/
theorem exists_line_rebound {l : Line} {pos : Nat} {state : Exclusion.State}
    (hfeed : Byte.lf ∉ l.text) (hsize : pos + l.text.length < UInt32.size)
    (hshows : showsBinding (rowOf checkDocs l.text pos.toUInt32 (state.flags l.text)) = true) :
    ∃ e m, editsOn s (rowOf checkDocs l.text pos.toUInt32 (state.flags l.text)) = [e] ∧
      e.Rewrites pos l m ∧ state.flags m = state.flags l.text ∧ state.next m = state.next l.text ∧
      ∀ offset flags, isLetBinding (rowOf checkDocs m offset flags).codeTokens = false := by
  have hlet : isLetBinding (rowOf checkDocs l.text pos.toUInt32 (state.flags l.text)).codeTokens =
      true := by
    rw [showsBinding, Bool.and_eq_true] at hshows
    exact hshows.2
  obtain ⟨before, rest, hline, hgap, -, hoffset, hlength, hreplacement⟩ :=
    exists_binding (s := s) rfl hlet hsize
  obtain ⟨blank, hblank, hspaces⟩ := Text.exists_trimRight_append rest
  have hwords := isWords_before hgap isName_let
  have hwords' := isWords_before hgap isName_var
  have htail := (isTail_of_isSpace hspaces).noQuote
  have hmarker := isTail_marker.noQuote
  have hsplit : l.text = before ++ "let" ++ (Text.trimRight rest ++ blank) := by
    rw [hline, ← hblank]
  refine ⟨_, before ++ "var" ++ (Text.trimRight rest ++ marker), if_pos hshows,
    rewrites_binding hfeed hline hoffset hlength hreplacement, ?_, ?_, ?_⟩
  · rw [hsplit]
    exact Exclusion.State.flags_between hwords hwords'
      (by rw [List.length_append, List.length_append]; rfl) htail hmarker state _
  · rw [hsplit, Exclusion.State.next_between hwords htail,
      Exclusion.State.next_between hwords' hmarker]
  · intro offset flags
    exact not_isLetBinding_of_var hgap _

/-- **The lines of a file with all bindings rewritten.** -/
theorem exists_rebound (ls : List Line) (pos : Nat) (state : Exclusion.State)
    (hfeed : ∀ l ∈ ls, Byte.lf ∉ l.text)
    (hsize : pos + (ls.flatMap Line.bytes).length < UInt32.size) :
    ∃ ms, Edit.OnLines pos ls ((rowsFrom checkDocs pos state ls).flatMap (editsOn s)) ms ∧
      ∀ pos', (rowsFrom checkDocs pos' state ms).map exclusionOf =
          (rowsFrom checkDocs pos state ls).map exclusionOf ∧
        ∀ row ∈ rowsFrom checkDocs pos' state ms, showsBinding row = false := by
  induction ls generalizing pos state with
  | nil => exact ⟨[], .nil pos, fun pos' => ⟨rfl, nofun⟩⟩
  | cons l ls ih =>
    obtain ⟨hl, hrest⟩ := List.forall_mem_cons.1 hfeed
    have hlength : ((l :: ls).flatMap Line.bytes).length =
        l.size + (ls.flatMap Line.bytes).length := by
      rw [List.flatMap_cons, List.length_append, Line.bytes, List.length_append, Line.size]
    have htext : l.text.length ≤ l.size := Nat.le_add_right _ _
    obtain ⟨ms, hlines, hrows⟩ :=
      ih (pos + l.size) (state.next l.text) hrest (by omega)
    cases hshows : showsBinding (rowOf checkDocs l.text pos.toUInt32 (state.flags l.text)) with
    | true =>
      obtain ⟨e, m, hedits, hrewrites, hflags, hnext, hnone⟩ :=
        exists_line_rebound (s := s) hl (by omega) hshows
      refine ⟨⟨m, l.ending⟩ :: ms, ?_, fun pos' => ⟨?_, ?_⟩⟩
      · rw [rowsFrom, List.flatMap_cons, hedits]
        exact .edit hrewrites hlines
      · rw [rowsFrom, rowsFrom, List.map_cons, List.map_cons, hnext, (hrows _).1, hflags]
        rfl
      · rw [rowsFrom, hnext]
        refine List.forall_mem_cons.2 ⟨?_, (hrows _).2⟩
        rw [showsBinding, hnone, Bool.and_false]
    | false =>
      refine ⟨l :: ms, ?_, fun pos' => ⟨?_, ?_⟩⟩
      · rw [rowsFrom, List.flatMap_cons, editsOn, hshows]
        exact .keep hlines
      · rw [rowsFrom, rowsFrom, List.map_cons, List.map_cons, (hrows _).1]
        rfl
      · rw [rowsFrom]
        refine List.forall_mem_cons.2 ⟨?_, (hrows _).2⟩
        exact hshows

end

/-- **Rewriting all bindings of a text.** All their edits are selected and carried out. The lines of
the new text are excluded as those of the old one are, with the same prefixes, and no binding is
left to report. -/
theorem bindings_rewritten {path t : Text} {checkDocs : Bool} (hsize : t.length < UInt32.size) :
    let s := Source.ofText path t checkDocs
    let chosen := Edit.select (letEdits s)
    chosen.skipped = 0 ∧ chosen.edits = letEdits s ∧
      ∃ new, Edit.applyAll t chosen.edits = ⟨new, none⟩ ∧ new.lines.length = t.lines.length ∧
        (Source.ofText path new checkDocs).rows.map exclusionOf = s.rows.map exclusionOf ∧
        ∀ f ∈ findings (Source.ofText path new checkDocs), f.id ≠ "LET_BINDING" := by
  intro s chosen
  have hbytes : 0 + ((Line.split t).flatMap Line.bytes).length < UInt32.size := by
    rw [Line.flatMap_bytes_split, Nat.zero_add]
    exact hsize
  have hfeed : ∀ l ∈ Line.split t, Byte.lf ∉ l.text := by
    intro l hl
    obtain ⟨i, hi⟩ := List.getElem?_of_mem hl
    exact Line.lf_notMem hi
  obtain ⟨ms, hlines, hrows⟩ :=
    exists_rebound (s := s) (Line.split t) 0 Exclusion.State.start hfeed hbytes
  rw [← Source.rows_ofText path t checkDocs, ← letEdits_eq] at hlines
  have hchosen : chosen = ⟨letEdits s, 0⟩ := hlines.select_eq hbytes
  obtain ⟨new, happly, hnew⟩ := hlines.applyAll_eq
  obtain ⟨hexcluded, hnone⟩ := hrows 0
  rw [← hnew, ← Source.rows_ofText path, ← Source.rows_ofText path] at hexcluded
  rw [← hnew, ← Source.rows_ofText path] at hnone
  rw [hchosen]
  refine ⟨rfl, rfl, new, happly, ?_, hexcluded, ?_⟩
  · rw [← Source.length_rows path new checkDocs, ← Source.length_rows path t checkDocs,
      ← List.length_map exclusionOf, hexcluded, List.length_map]
  · intro f hf hid
    obtain ⟨row, i, hrow, hlet, -⟩ := exists_letFinding hf (.inl hid)
    obtain ⟨hget, hvisible⟩ := Source.mem_visible_iff.1 hrow
    have hshows := hnone row (List.mem_of_getElem? hget)
    rw [showsBinding, hvisible, hlet] at hshows
    cases hshows

/-- Three bindings, of which one opens a string over lines that look like a fourth. -/
theorem bindings_rewritten_around_string :
    let t : Text := "let a = 1\n  let s = \"\"\"\nlet b = 2\n\"\"\"\nlet (c, d) = s  # pair"
    let s := Source.ofText "a.mojo" t true
    t.length < UInt32.size ∧ (letEdits s).length = 3 ∧ (Edit.select (letEdits s)).skipped = 0 ∧
      ∃ new, Edit.applyAll t (Edit.select (letEdits s)).edits = ⟨new, none⟩ ∧
        ∀ f ∈ findings (Source.ofText "a.mojo" new true), f.id ≠ "LET_BINDING" := by
  repeat rw [Text.ofString_ofList]
  intro t s
  have hsize : t.length < UInt32.size := by decide +kernel
  obtain ⟨hskipped, -, new, happly, -, -, hnone⟩ :=
    @bindings_rewritten (Text.ofString "a.mojo") t true hsize
  refine ⟨hsize, by decide +kernel, ?_, new, ?_, ?_⟩
  · exact hskipped
  · exact happly
  · exact hnone

end Rule.Variables

end MojoLint
