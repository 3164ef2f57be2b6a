import Mathlib.Data.List.Infix
import MojoLint.Proofs.Source.Rows
import MojoLint.Proofs.Token.Slices
import MojoLint.Rule.Gpu

/-!
# What the GPU rules report

The three rules share one pass over the tokens of a line, and the pass ends at the first simulation
label. What stands in front of its end is reported exactly: every call of a retired method, and the
first kernel indicator of a file without a device context. What stands behind a label is not. So
all that a file holds is reported exactly when no line hides it behind a label (`reports_exact`).
-/

namespace MojoLint

/-- Rows are listed in the order of their numbers. -/
theorem Source.pairwise_visible (s : Source) : s.visible.Pairwise fun a b => a.2 < b.2 := by
  have hnumbers : (s.rows.zipIdx.map Prod.snd).Pairwise (· < ·) := by
    rw [List.zipIdx_map_snd]
    exact List.pairwise_lt_range'
  exact (List.pairwise_map.1 hnumbers).filter _

namespace Rule.Gpu

/-! ## What there is to report -/

/-- The retired method that is called at the start of the tokens, behind a dot, and its
replacement. -/
def retiredCall? : List Token → Option (Text × Text)
  | dot :: method :: bracket :: _ =>
    if dot.isPunct "." && method.kind == .ident && bracket.isOpener then
      retiredMethods.find? (·.1 == method.text)
    else none
  | _ => none

/-- The calls of retired methods among the tokens. -/
def retiredCalls (ts : List Token) : List (Text × Text) := ts.tails.filterMap retiredCall?

theorem retiredCalls_cons (t : Token) (ts : List Token) :
    retiredCalls (t :: ts) = (retiredCall? (t :: ts)).toList ++ retiredCalls ts := by
  rw [retiredCalls, List.tails_cons, List.filterMap_cons]
  cases retiredCall? (t :: ts) <;> rfl

/-- The findings for all calls of retired methods. -/
def retiredReports (s : Source) : List Finding :=
  s.visible.flatMap fun (row, i) =>
    (retiredCalls row.tokens).map fun (old, new) => retiredFinding s i old new

/-- The finding for the first kernel indicator, when there is no device context. -/
def contextReports (s : Source) : List Finding :=
  if s.mentions "DeviceContext" then []
  else
    (s.visible.findSome? fun (row, i) =>
      (row.tokens.find? isKernelIndicator).map fun t => contextFinding s i t.text).toList

/-! ## The pass over a line -/

/-- The sites up to the first simulation label, itself included. -/
def upToLabel : List Site → List Site
  | [] => []
  | site :: rest => if site.isSimulationLabel then [site] else site :: upToLabel rest

/-- The sites behind the first simulation label. -/
def behindLabel : List Site → List Site
  | [] => []
  | site :: rest => if site.isSimulationLabel then rest else behindLabel rest

/-- The sites of a row that the pass reads. -/
def read (row : Row) : List Site := upToLabel (sites [] row.codeTokens)

/-- The sites of a row that it does not read. -/
def unread (row : Row) : List Site := behindLabel (sites [] row.codeTokens)

theorem upToLabel_append_behindLabel (l : List Site) : upToLabel l ++ behindLabel l = l := by
  induction l with
  | nil => rfl
  | cons site rest ih =>
    rw [upToLabel, behindLabel]
    split
    · rfl
    · rw [List.cons_append, ih]

theorem read_append_unread (row : Row) : read row ++ unread row = sites [] row.codeTokens :=
  upToLabel_append_behindLabel _

/-- The first kernel indicator among the sites. -/
def indicator? (l : List Site) : Option Site := l.find? fun site => isKernelIndicator site.token

theorem indicator?_cons (site : Site) (l : List Site) :
    indicator? (site :: l) = if isKernelIndicator site.token then some site else indicator? l := by
  rw [indicator?, List.find?_cons]
  cases isKernelIndicator site.token <;> rfl

/-- The finding for the retired method that is called at a site. -/
def retiredAt? (s : Source) (i : Nat) (site : Site) : Option Finding :=
  site.retired?.map fun (old, new) => retiredFinding s i old new

/-- What is reported at a site, a simulation label apart. -/
def siteReports (s : Source) (i : Nat) (missing : Bool) (site : Site) : List Finding :=
  (retiredAt? s i site).toList ++ if missing then [contextFinding s i site.token.text] else []

section

variable (s : Source) (i : Nat) (pending missing : Bool) (site : Site) (l : List Site)

theorem siteFindings_cons :
    siteFindings s i pending (site :: l) =
      let missing := pending && isKernelIndicator site.token
      let still := pending && !missing
      if site.isSimulationLabel then (siteReports s i missing site ++ [labelFinding s i], still)
      else
        (siteReports s i missing site ++ (siteFindings s i still l).1,
          (siteFindings s i still l).2) := rfl

theorem filter_retired_siteReports :
    (siteReports s i missing site).filter (Finding.isBy "GPU_RETIRED_API") =
      (retiredAt? s i site).toList := by
  have hretired : (retiredAt? s i site).toList.filter (Finding.isBy "GPU_RETIRED_API") =
      (retiredAt? s i site).toList := by
    unfold retiredAt?
    cases site.retired? <;> rfl
  rw [siteReports, List.filter_append, hretired]
  cases missing <;> exact List.append_nil _

theorem filter_context_siteReports :
    (siteReports s i missing site).filter (Finding.isBy "GPU_MISSING_CONTEXT") =
      if missing then [contextFinding s i site.token.text] else [] := by
  have hretired : (retiredAt? s i site).toList.filter (Finding.isBy "GPU_MISSING_CONTEXT") =
      [] := by
    unfold retiredAt?
    cases site.retired? <;> rfl
  rw [siteReports, List.filter_append, hretired]
  cases missing <;> rfl

/-- The calls in front of the end of the pass are reported. -/
theorem filter_retired_siteFindings :
    (siteFindings s i pending l).1.filter (Finding.isBy "GPU_RETIRED_API") =
      (upToLabel l).filterMap (retiredAt? s i) := by
  induction l generalizing pending with
  | nil => rfl
  | cons site rest ih =>
    rw [siteFindings_cons, upToLabel]
    split
    · rw [List.filter_append, filter_retired_siteReports, List.filterMap_cons]
      cases retiredAt? s i site <;> rfl
    · rw [List.filter_append, filter_retired_siteReports, ih, List.filterMap_cons]
      cases retiredAt? s i site <;> rfl

/-- The first indicator in front of the end of the pass is reported, when one is to be. -/
theorem filter_context_siteFindings :
    (siteFindings s i pending l).1.filter (Finding.isBy "GPU_MISSING_CONTEXT") =
        (if pending then
          ((indicator? (upToLabel l)).map fun site => contextFinding s i site.token.text).toList
        else []) ∧
      (siteFindings s i pending l).2 = (pending && (indicator? (upToLabel l)).isNone) := by
  induction l generalizing pending with
  | nil => cases pending <;> exact ⟨rfl, rfl⟩
  | cons site rest ih =>
    have hlabel : [labelFinding s i].filter (Finding.isBy "GPU_MISSING_CONTEXT") = [] := rfl
    obtain ⟨hlater, hstill⟩ := ih (pending && !(pending && isKernelIndicator site.token))
    rw [siteFindings_cons, upToLabel]
    split
    · rw [List.filter_append, filter_context_siteReports, hlabel, indicator?_cons]
      cases pending <;> cases isKernelIndicator site.token <;> exact ⟨rfl, rfl⟩
    · rw [List.filter_append, filter_context_siteReports, hlater, hstill, indicator?_cons]
      cases pending <;> cases isKernelIndicator site.token <;> exact ⟨rfl, rfl⟩

end

/-! ## The pass over a file -/

/-- The finding for the first kernel indicator that is read on a row. -/
def contextAt? (s : Source) (p : Row × Nat) : Option Finding :=
  (indicator? (read p.1)).map fun site => contextFinding s p.2 site.token.text

theorem filter_retired_findings (s : Source) :
    (findings s).filter (Finding.isBy "GPU_RETIRED_API") =
      s.visible.flatMap fun (row, i) => (read row).filterMap (retiredAt? s i) := by
  unfold findings
  generalize (!s.mentions "DeviceContext") = pending
  induction s.visible generalizing pending with
  | nil => rfl
  | cons p rest ih =>
    rw [rowFindings, List.filter_append, filter_retired_siteFindings, ih, List.flatMap_cons]
    rfl

theorem filter_context_rowFindings (s : Source) (pending : Bool) (rows : List (Row × Nat)) :
    (rowFindings s pending rows).filter (Finding.isBy "GPU_MISSING_CONTEXT") =
      if pending then (rows.findSome? (contextAt? s)).toList else [] := by
  induction rows generalizing pending with
  | nil => cases pending <;> rfl
  | cons p rest ih =>
    obtain ⟨hhere, hstill⟩ := filter_context_siteFindings s p.2 pending (sites [] p.1.codeTokens)
    rw [rowFindings, List.filter_append, hhere, ih, hstill, List.findSome?_cons, contextAt?, read]
    cases pending with
    | false => rfl
    | true => cases indicator? (upToLabel (sites [] p.1.codeTokens)) <;> rfl

theorem filter_context_findings (s : Source) :
    (findings s).filter (Finding.isBy "GPU_MISSING_CONTEXT") =
      if s.mentions "DeviceContext" then [] else (s.visible.findSome? (contextAt? s)).toList := by
  rw [findings, filter_context_rowFindings]
  cases s.mentions "DeviceContext" <;> rfl

/-! ## Sites and tokens -/

theorem map_token_sites (before ts : List Token) : (sites before ts).map Site.token = ts := by
  induction ts generalizing before with
  | nil => rfl
  | cons t ts ih => exact congrArg (t :: ·) (ih _)

/-- The calls at the sites are those among the tokens, with the nearest token before them. -/
theorem filterMap_retired?_sites (before ts : List Token) :
    (sites before ts).filterMap Site.retired? = retiredCalls (before.head?.toList ++ ts) := by
  induction ts generalizing before with
  | nil => cases before <;> rfl
  | cons t ts ih =>
    have hlater := ih (t :: before)
    rw [List.head?_cons, Option.toList_some, List.singleton_append] at hlater
    rw [sites, List.filterMap_cons, hlater]
    cases before with
    | nil =>
      have hnone : Site.retired? ⟨[], t, ts⟩ = none := by
        simp [Site.retired?, Site.isCalled]
      rw [hnone]
      rfl
    | cons dot before =>
      have hhere : Site.retired? ⟨dot :: before, t, ts⟩ = retiredCall? (dot :: t :: ts) := by
        cases ts with
        | nil => simp [Site.retired?, Site.isCalled, retiredCall?]
        | cons bracket ts => simp [Site.retired?, Site.isCalled, retiredCall?, Bool.and_comm]
      rw [hhere, List.head?_cons, Option.toList_some, List.singleton_append,
        retiredCalls_cons dot]
      cases retiredCall? (dot :: t :: ts) <;> rfl

/-- No call ends in a comment. -/
theorem retiredCalls_concat {comment : Token} (h : comment.kind = .comment) (ts : List Token) :
    retiredCalls (ts ++ [comment]) = retiredCalls ts := by
  have hopener : comment.isOpener = false := by simp [Token.isOpener, Token.isPunct, h]
  induction ts with
  | nil => rfl
  | cons dot ts ih =>
    have hhere : retiredCall? (dot :: (ts ++ [comment])) = retiredCall? (dot :: ts) := by
      rcases ts with _ | ⟨method, _ | ⟨bracket, ts⟩⟩
      · rfl
      · simp [retiredCall?, hopener]
      · rfl
    rw [List.cons_append, retiredCalls_cons, retiredCalls_cons, hhere, ih]

theorem retiredCalls_tokens (row : Row) :
    retiredCalls row.tokens =
      (read row).filterMap Site.retired? ++ (unread row).filterMap Site.retired? := by
  have hcode : retiredCalls row.tokens = retiredCalls row.codeTokens := by
    rcases Token.dropComment_spec row.tokens with h | ⟨comment, hcomment, h⟩
    · rw [Row.codeTokens, h]
    · rw [h, retiredCalls_concat hcomment, Row.codeTokens]
  rw [← List.filterMap_append, read_append_unread, filterMap_retired?_sites, hcode]
  rfl

/-- The first kernel indicator of a row stands in what is read, or else in what is not. -/
theorem find?_indicator_tokens (row : Row) :
    row.tokens.find? isKernelIndicator =
      ((indicator? (read row)).or (indicator? (unread row))).map Site.token := by
  have hcode : row.tokens.find? isKernelIndicator = row.codeTokens.find? isKernelIndicator := by
    rcases Token.dropComment_spec row.tokens with h | ⟨comment, hcomment, h⟩
    · rw [Row.codeTokens, h]
    · have hnone : [comment].find? isKernelIndicator = none := by
        simp [isKernelIndicator, hcomment]
      rw [h, List.find?_append, hnone, Option.or_none, Row.codeTokens]
  have hsites : row.codeTokens.find? isKernelIndicator =
      (indicator? (sites [] row.codeTokens)).map Site.token := by
    rw [← map_token_sites [] row.codeTokens, List.find?_map, map_token_sites]
    rfl
  rw [hcode, hsites, ← read_append_unread, indicator?, List.find?_append]
  rfl

/-! ## The reports -/

/-- What is left out of a list of lists shows, unless it is empty. -/
theorem flatMap_append_iff {α β : Type} {f g : α → List β} {l : List α} :
    l.flatMap f = l.flatMap (fun a => f a ++ g a) ↔ ∀ a ∈ l, g a = [] := by
  constructor
  · intro h
    have hsizes : (l.map fun a => (f a ++ g a).length).sum =
        (l.map fun a => (f a).length).sum + (l.map fun a => (g a).length).sum := by
      clear h
      induction l with
      | nil => rfl
      | cons a l ih =>
        simp only [List.map_cons, List.sum_cons, List.length_append] at ih ⊢
        omega
    have hlength := congrArg List.length h
    rw [List.length_flatMap, List.length_flatMap, hsizes] at hlength
    have hzero : (l.map fun a => (g a).length).sum = 0 := by omega
    intro a ha
    exact List.length_eq_zero_iff.1
      (List.sum_eq_zero_iff_forall_eq_nat.1 hzero _ (List.mem_map_of_mem ha))
  · intro h
    induction l with
    | nil => rfl
    | cons a l ih =>
      obtain ⟨ha, hl⟩ := List.forall_mem_cons.1 h
      rw [List.flatMap_cons, List.flatMap_cons, ih hl, ha, List.append_nil]

/-- All calls are reported exactly when none stands behind a label. -/
theorem retired_iff (s : Source) :
    (findings s).filter (Finding.isBy "GPU_RETIRED_API") = retiredReports s ↔
      ∀ p ∈ s.visible, ∀ site ∈ unread p.1, site.retired? = none := by
  have hall : retiredReports s = s.visible.flatMap fun p =>
      (read p.1).filterMap (retiredAt? s p.2) ++ (unread p.1).filterMap (retiredAt? s p.2) := by
    refine congrArg (fun f => s.visible.flatMap f) (funext ?_)
    rintro ⟨row, i⟩
    simp only [retiredCalls_tokens, List.map_append, List.map_filterMap]
    rfl
  have hnone : ∀ i site, retiredAt? s i site = none ↔ site.retired? = none := by
    intro i site
    exact Option.map_eq_none_iff
  rw [filter_retired_findings, hall]
  refine flatMap_append_iff.trans ?_
  simp only [List.filterMap_eq_nil_iff, hnone]

/-- The finding for the first kernel indicator on a row. -/
def indicatorAt? (s : Source) (p : Row × Nat) : Option Finding :=
  (p.1.tokens.find? isKernelIndicator).map fun t => contextFinding s p.2 t.text

theorem contextReports_eq (s : Source) :
    contextReports s =
      if s.mentions "DeviceContext" then [] else (s.visible.findSome? (indicatorAt? s)).toList :=
  rfl

/-- A row that shows an indicator is reported like it. A row whose indicators all stand behind a
label is not reported. -/
theorem contextAt?_eq (s : Source) (p : Row × Nat) :
    contextAt? s p =
      if (indicator? (read p.1)).isSome then indicatorAt? s p else none := by
  rw [contextAt?, indicatorAt?, find?_indicator_tokens]
  cases indicator? (read p.1) <;> rfl

theorem contextAt?_isOn {s : Source} {p : Row × Nat} {f : Finding} (h : contextAt? s p = some f) :
    f.IsOn p.2 := by
  obtain ⟨site, -, rfl⟩ := Option.map_eq_some_iff.1 h
  rfl

theorem indicatorAt?_isOn {s : Source} {p : Row × Nat} {f : Finding}
    (h : indicatorAt? s p = some f) : f.IsOn p.2 := by
  obtain ⟨t, -, rfl⟩ := Option.map_eq_some_iff.1 h
  rfl

/-- Whether a kernel indicator stands on the row. -/
def hasIndicator (p : Row × Nat) : Bool := p.1.tokens.any isKernelIndicator

theorem indicatorAt?_eq_none_iff {s : Source} {p : Row × Nat} :
    indicatorAt? s p = none ↔ hasIndicator p = false := by
  simp [indicatorAt?, hasIndicator]

theorem at?_of_not_hasIndicator {s : Source} {p : Row × Nat} (h : hasIndicator p = false) :
    indicatorAt? s p = none ∧ contextAt? s p = none := by
  have hnone := indicatorAt?_eq_none_iff (s := s) |>.2 h
  rw [contextAt?_eq, hnone, ite_self]
  exact ⟨rfl, rfl⟩

section

variable {s : Source} {rows : List (Row × Nat)}

/-- The first indicator is reported when it is read. -/
theorem findSome?_contextAt (h : ∀ p ∈ rows.find? hasIndicator, (indicator? (read p.1)).isSome) :
    rows.findSome? (contextAt? s) = rows.findSome? (indicatorAt? s) := by
  induction rows with
  | nil => rfl
  | cons p rest ih =>
    rw [List.find?_cons] at h
    rw [List.findSome?_cons, List.findSome?_cons]
    cases hp : hasIndicator p with
    | true =>
      rw [hp] at h
      rw [contextAt?_eq, if_pos (h p rfl)]
      cases hfinding : indicatorAt? s p with
      | some f => rfl
      | none =>
        rw [indicatorAt?_eq_none_iff.1 hfinding] at hp
        cases hp
    | false =>
      rw [hp] at h
      obtain ⟨hindicator, hcontext⟩ := at?_of_not_hasIndicator hp
      rw [hindicator, hcontext]
      exact ih h

/-- When it is not read, what is reported instead is on a later row. -/
theorem indicator?_of_findSome? (horder : rows.Pairwise fun a b => a.2 < b.2)
    (hsize : ∀ p ∈ rows, p.2 < UInt32.size)
    (h : rows.findSome? (contextAt? s) = rows.findSome? (indicatorAt? s)) :
    ∀ p ∈ rows.find? hasIndicator, (indicator? (read p.1)).isSome := by
  induction rows with
  | nil => nofun
  | cons q rest ih =>
    obtain ⟨hbehind, horder⟩ := List.pairwise_cons.1 horder
    obtain ⟨hq, hrest⟩ := List.forall_mem_cons.1 hsize
    rw [List.findSome?_cons, List.findSome?_cons] at h
    rw [List.find?_cons]
    cases hhas : hasIndicator q with
    | false =>
      obtain ⟨hindicator, hcontext⟩ := at?_of_not_hasIndicator hhas
      rw [hindicator, hcontext] at h
      exact ih horder hrest h
    | true =>
      rintro p ⟨rfl⟩
      cases hread : (indicator? (read q.1)).isSome with
      | true => rfl
      | false =>
        obtain ⟨f, hf⟩ : ∃ f, indicatorAt? s q = some f := by
          cases hfinding : indicatorAt? s q with
          | some f => exact ⟨f, rfl⟩
          | none =>
            rw [indicatorAt?_eq_none_iff.1 hfinding] at hhas
            cases hhas
        rw [contextAt?_eq, hread, if_neg Bool.false_ne_true, hf] at h
        obtain ⟨r, hr, hlater⟩ := List.exists_of_findSome?_eq_some h
        have hline : q.2 = r.2 := by
          rw [← (indicatorAt?_isOn hf).toNat_line hq,
            ← (contextAt?_isOn hlater).toNat_line (hrest r hr)]
        have := hbehind r hr
        omega

end

/-- **What the GPU rules report**, and when this is all there is. Calls of retired methods are
reported up to the first label on their line, and all of them exactly when none stands behind a
label. A missing device context is reported once, for the first kernel indicator that no label
hides, and as it should be when the first row with an indicator shows one. -/
theorem reports_exact (s : Source) :
    let retired := (findings s).filter (Finding.isBy "GPU_RETIRED_API")
    let missing := (findings s).filter (Finding.isBy "GPU_MISSING_CONTEXT")
    retired = (s.visible.flatMap fun (row, i) => (read row).filterMap (retiredAt? s i)) ∧
      (retired = retiredReports s ↔
        ∀ p ∈ s.visible, ∀ site ∈ unread p.1, site.retired? = none) ∧
      missing =
        (if s.mentions "DeviceContext" then [] else (s.visible.findSome? (contextAt? s)).toList) ∧
      (s.mentions "DeviceContext" = true ∨
          (∀ p ∈ s.visible.find? hasIndicator, (indicator? (read p.1)).isSome) →
        missing = contextReports s) ∧
      (s.rows.length ≤ UInt32.size → missing = contextReports s →
        s.mentions "DeviceContext" = true ∨
          ∀ p ∈ s.visible.find? hasIndicator, (indicator? (read p.1)).isSome) := by
  intro retired missing
  have hmissing : missing = if s.mentions "DeviceContext" then [] else
      (s.visible.findSome? (contextAt? s)).toList := filter_context_findings s
  refine ⟨filter_retired_findings s, retired_iff s, hmissing, ?_, ?_⟩
  · rintro (hcontext | hread)
    · rw [hmissing, contextReports_eq, if_pos hcontext, if_pos hcontext]
    · rw [hmissing, contextReports_eq, findSome?_contextAt hread]
  · intro hsize hall
    rw [hmissing, contextReports_eq] at hall
    cases hcontext : s.mentions "DeviceContext" with
    | true => exact .inl rfl
    | false =>
      rw [hcontext, if_neg Bool.false_ne_true, if_neg Bool.false_ne_true] at hall
      have hfirst : s.visible.findSome? (contextAt? s) = s.visible.findSome? (indicatorAt? s) := by
        simpa using congrArg List.head? hall
      refine .inr (indicator?_of_findSome? s.pairwise_visible ?_ hfirst)
      rintro ⟨row, i⟩ hp
      exact Nat.lt_of_lt_of_le (Source.lt_length_of_mem_visible hp) hsize

/-- A call, an indicator and a label on separate lines: all are reported. -/
theorem reports_exact_separate :
    let t : Text := "fn k():\n    ctx.create_buffer(thread_idx.x)\n    print(\"MOCK\")\n"
    let s := Source.ofText "a.mojo" t false
    (findings s).filter (Finding.isBy "GPU_RETIRED_API") =
        [retiredFinding s 1 "create_buffer" "enqueue_create_buffer"] ∧
      (findings s).filter (Finding.isBy "GPU_MISSING_CONTEXT") =
        [contextFinding s 1 "thread_idx"] := by
  repeat rw [Text.ofString_ofList]
  intro t s
  obtain ⟨-, hretired, -, hcontext, -⟩ := reports_exact s
  have hcalls : ∀ p ∈ s.visible, ∀ site ∈ unread p.1, site.retired? = none := by decide +kernel
  have hread : ∀ p ∈ s.visible.find? hasIndicator, (indicator? (read p.1)).isSome := by
    decide +kernel
  refine ⟨(hretired.2 hcalls).trans ?_, (hcontext (.inr hread)).trans ?_⟩
  · decide +kernel
  · decide +kernel

/-- Behind a label on their line, a call and an indicator are lost. -/
theorem findings_behind_label :
    let t : Text := "fn k():\n    print(\"MOCK\", thread_idx.x, ctx.create_buffer(1))\n"
    let s := Source.ofText "a.mojo" t false
    findings s = [labelFinding s 1] ∧
      retiredReports s = [retiredFinding s 1 "create_buffer" "enqueue_create_buffer"] ∧
      contextReports s = [contextFinding s 1 "thread_idx"] := by
  repeat rw [Text.ofString_ofList]
  intro t s
  decide +kernel

end Rule.Gpu

end MojoLint
