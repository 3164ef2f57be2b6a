import MojoLint.Proofs.Checker.Order
import MojoLint.Proofs.Rule.Placement
import MojoLint.Proofs.Source.Rows
import MojoLint.Proofs.Text.Replace

/-!
# Line endings

A text whose lines end in a carriage return and a line feed has the lines of the text whose lines
end in a line feed alone (`Text.lines_withReturns`). So the two source files differ in offsets only,
and as offsets only place edits, a check reports the same about both.
-/

namespace MojoLint

namespace Text

/-- The text with a carriage return before each line feed. -/
def withReturns (t : Text) : Text :=
  t.flatMap fun b => if b = Byte.lf then [Byte.cr, Byte.lf] else [b]

theorem withReturns_append (s t : Text) : withReturns (s ++ t) = withReturns s ++ withReturns t :=
  List.flatMap_append

theorem withReturns_of_lf_notMem {t : Text} (h : Byte.lf ∉ t) : withReturns t = t := by
  induction t with
  | nil => rfl
  | cons b t ih =>
    have hb : b ≠ Byte.lf := by
      rintro rfl
      exact h List.mem_cons_self
    have ht := ih fun hmem => h (List.mem_cons_of_mem b hmem)
    unfold withReturns at ht ⊢
    rw [List.flatMap_cons, if_neg hb, ht, List.singleton_append]

theorem lines_withReturns {t : Text} (h : Byte.cr ∉ t) : (withReturns t).lines = t.lines := by
  fun_induction Line.split t with
  | case1 => rfl
  | case2 b s hdrop =>
    rw [withReturns_of_lf_notMem (Line.lf_notMem_of_dropWhile hdrop)]
  | case3 b s head rest hdrop shorter ih =>
    have htext := Line.eq_takeWhile_append_feed hdrop
    have hbody := Line.lf_notMem_takeWhile (b :: s)
    generalize (b :: s).takeWhile (· != Byte.lf) = body at htext hbody
    rw [htext] at h ⊢
    have hcr : Byte.cr ∉ body := fun hmem => h (List.mem_append_left _ hmem)
    have hrest : Byte.cr ∉ rest := fun hmem =>
      h (List.mem_append_right _ (List.mem_cons_of_mem _ hmem))
    have hreturns : withReturns (body ++ Byte.lf :: rest) =
        (body ++ [Byte.cr]) ++ Byte.lf :: withReturns rest := by
      rw [withReturns_append, withReturns_of_lf_notMem hbody, List.append_assoc]
      rfl
    have hlf : Byte.lf ∉ body ++ [Byte.cr] := by
      rw [List.mem_append, List.mem_singleton]
      rintro (hmem | hlf)
      · exact hbody hmem
      · cases hlf
    have hlines := ih hrest
    unfold Text.lines at hlines ⊢
    rw [hreturns, split_append_lf hlf, split_append_lf hbody, List.map_cons, List.map_cons, hlines,
      text_close_return, text_close_of_cr_notMem hcr]

theorem getLast?_withReturns (t : Text) : (withReturns t).getLast? = t.getLast? := by
  rcases List.eq_nil_or_concat t with rfl | ⟨init, b, rfl⟩
  · rfl
  · rw [List.concat_eq_append, withReturns_append, List.getLast?_append, List.getLast?_append]
    by_cases hb : b = Byte.lf
    · simp [withReturns, hb]
    · simp [withReturns, hb]

theorem endsWith_withReturns (t : Text) : endsWith (withReturns t) "\n" = endsWith t "\n" := by
  rw [Bool.eq_iff_iff, endsWith_lf_iff, endsWith_lf_iff, getLast?_withReturns]

end Text

namespace Source

theorem map_unplaced_zipWith (checkDocs : Bool) (texts : List Text) (starts : List UInt32)
    (flags : List Exclusion.Flags) (h : texts.length ≤ starts.length) :
    (List.zipWith (fun (line, offset) f => rowOf checkDocs line offset f) (texts.zip starts)
      flags).map Row.unplaced =
        List.zipWith (fun line f => rowOf checkDocs line 0 f) texts flags := by
  induction texts generalizing starts flags with
  | nil => rfl
  | cons line texts ih =>
    cases starts with
    | nil => cases h
    | cons start starts =>
      cases flags with
      | nil => rfl
      | cons f flags =>
        have hrest := ih starts flags (Nat.le_of_succ_le_succ h)
        rw [List.zip_cons_cons, List.zipWith_cons_cons, List.map_cons, hrest]
        rfl

/-- Two texts with the same lines, both or none of them ending in a line feed, give source files
that differ in offsets only. -/
theorem unplaced_ofText_congr {t t' : Text} (hlines : t.lines = t'.lines)
    (hends : Text.endsWith t "\n" = Text.endsWith t' "\n") (path : Text) (checkDocs : Bool) :
    (ofText path t checkDocs).unplaced = (ofText path t' checkDocs).unplaced := by
  have hrows : ∀ t : Text, ((ofText path t checkDocs).rows.map Row.unplaced) =
      List.zipWith (fun line f => rowOf checkDocs line 0 f) t.lines
        (Exclusion.ofLines checkDocs t.lines).flags := by
    intro t
    apply map_unplaced_zipWith
    rw [Line.length_starts, List.length_map]
    exact Nat.le_succ _
  have htext : ∀ t : Text, (ofText path t checkDocs).text = t := fun _ => rfl
  unfold unplaced
  rw [hrows, hrows, hlines, htext, htext, hends]
  rfl

end Source

namespace Checker

theorem map_unplaced_byLine (fs : List Finding) :
    (byLine fs).map Finding.unplaced = byLine (fs.map Finding.unplaced) := by
  apply List.map_mergeSort
  intro f _ g _
  rfl

theorem lineCount_check (o : Options) (path text : Text) :
    (check o path text).lineCount = text.lines.length :=
  Source.length_rows path text o.checkDocs

theorem score_check (o : Options) (path text : Text) :
    (check o path text).score =
      if text.lines.length = 0 then 100
      else 100 -
        (10 * (check o path text).count .error + 5 * (check o path text).count .warning) := by
  have hdeserved : (check o path text).score = (check o path text).deserved := rfl
  have hread : (check o path text).unreadable = false := rfl
  rw [hdeserved, Report.deserved, hread, lineCount_check, if_neg Bool.false_ne_true]

theorem count_eq_of_map_unplaced {r r' : Report}
    (h : r.findings.map Finding.unplaced = r'.findings.map Finding.unplaced) (s : Severity) :
    r.count s = r'.count s := by
  have hcount : ∀ r : Report, r.count s =
      (r.findings.map Finding.unplaced).countP fun f => f.severity = s := by
    intro r
    rw [List.countP_map]
    rfl
  rw [hcount r, hcount r', h]

/-- The findings of a check, but for the ranges of their edits, depend on the file without its
offsets. -/
theorem map_unplaced_findings_check (o : Options) (path text : Text) :
    (check o path text).findings.map Finding.unplaced =
      byLine (((allFindings (Source.ofText path text o.checkDocs).unplaced).map
        Finding.unplaced).filter (keeps o)) := by
  rw [findings_check, map_unplaced_byLine, allFindings_unplaced, List.filter_map]
  rfl

/-- **Line endings do not matter.** A text and the same text with carriage returns get the same
score and line count and the same findings, but for the ranges of their edits. -/
theorem check_withReturns (o : Options) (path : Text) {text : Text} (h : Byte.cr ∉ text) :
    let report := check o path text
    let returned := check o path text.withReturns
    returned.score = report.score ∧ returned.lineCount = report.lineCount ∧
      returned.findings.map Finding.unplaced = report.findings.map Finding.unplaced := by
  have hlines := Text.lines_withReturns h
  have hfindings : (check o path text.withReturns).findings.map Finding.unplaced =
      (check o path text).findings.map Finding.unplaced := by
    rw [map_unplaced_findings_check, map_unplaced_findings_check,
      Source.unplaced_ofText_congr hlines (Text.endsWith_withReturns text)]
  refine ⟨?_, ?_, hfindings⟩
  · rw [score_check, score_check, hlines, count_eq_of_map_unplaced hfindings,
      count_eq_of_map_unplaced hfindings]
  · rw [lineCount_check, lineCount_check, hlines]

/-- The carriage return of a blank line moves the edit of the binding behind it. -/
theorem check_withReturns_moves_edit :
    let text : Text := "\nlet x = 1\n"
    let report := check .standard "f" text
    let returned := check .standard "f" text.withReturns
    Byte.cr ∉ text ∧ returned.findings ≠ report.findings ∧ returned.score = report.score ∧
      returned.lineCount = report.lineCount ∧
      returned.findings.map Finding.unplaced = report.findings.map Finding.unplaced := by
  intro text report returned
  have h : Byte.cr ∉ text := by decide +kernel
  exact ⟨h, by decide +kernel, check_withReturns .standard "f" h⟩

end Checker

end MojoLint
