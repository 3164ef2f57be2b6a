import MojoLint.Checker
import MojoLint.Proofs.Traits.Reports

/-!
# On which lines the rules report

Six of the eight families report only on lines that are not excluded (`Source.Shows`), the
documentation rules apart from their verdicts on docstrings among them. The other two look at more
lines than the one whose exclusion they test:

* the variable rules go on through the header of a function, line by line (`ConventionSite`);
* the struct rules report a lifecycle method on its own line (`LifecycleSite`).

For these two the lines are determined exactly: a report on such a line stems from a site, and every
site is reported.
-/

namespace MojoLint

namespace Rule

/-! ## Families that report on the line they look at -/

theorem eq_of_mem_ite {c : Prop} [Decidable c] {f g : Finding}
    (h : f ∈ if c then [g] else []) : f = g := by
  split at h
  · exact List.mem_singleton.1 h
  · cases h

theorem Imports.isOn_of_mem {s : Source} {first : Option Nat} {row : Row} {i : Nat} {f : Finding}
    (h : f ∈ lineFindings s first row i) : f.IsOn i := by
  unfold lineFindings at h
  simp only at h
  split at h
  · obtain rfl := List.mem_singleton.1 h
    rfl
  · rcases List.mem_append.1 h with h | h
    · obtain ⟨first, -, rfl⟩ := Option.map_eq_some_iff.1 (Option.mem_toList.1 h)
      rfl
    · split at h
      · obtain ⟨t, -, ht⟩ := List.mem_filterMap.1 h
        split at ht
        · obtain ⟨names, -, rfl⟩ := Option.map_eq_some_iff.1 ht
          rfl
        · cases ht
      · cases h
  · cases h

theorem Imports.shows {s : Source} {f : Finding} (h : f ∈ findings s) : s.Shows f := by
  obtain ⟨⟨row, i⟩, hrow, hf⟩ := List.mem_flatMap.1 h
  exact ⟨i, row, hrow, isOn_of_mem hf⟩

theorem Errors.notes {s : Source} {f : Finding} (h : f ∈ findings s) : s.Notes f := by
  obtain ⟨⟨row, i⟩, hrow, hf⟩ := List.mem_flatMap.1 h
  rcases List.mem_append.1 hf with hf | hf
  · rw [eq_of_mem_ite hf]
    exact ⟨⟨i, row, hrow, rfl⟩, rfl⟩
  · rw [eq_of_mem_ite hf]
    exact ⟨⟨i, row, hrow, rfl⟩, rfl⟩

theorem Performance.isOn_of_mem_loopFindings {s : Source} {i : Nat} {tokens : List Token}
    {f : Finding} (h : f ∈ loopFindings s i tokens) : f.IsOn i ∧ f.edits = [] := by
  rcases List.mem_append.1 h with h | h
  · rw [eq_of_mem_ite h]
    exact ⟨rfl, rfl⟩
  · rw [eq_of_mem_ite h]
    exact ⟨rfl, rfl⟩

theorem Performance.notes {s : Source} {f : Finding} (h : f ∈ findings s) : s.Notes f := by
  obtain ⟨⟨row, i⟩, hrow, hf⟩ := List.mem_flatMap.1 h
  rcases List.mem_append.1 hf with hf | hf
  · rw [eq_of_mem_ite hf]
    exact ⟨⟨i, row, hrow, rfl⟩, rfl⟩
  · split at hf
    · obtain ⟨hon, hedits⟩ := isOn_of_mem_loopFindings hf
      exact ⟨⟨i, row, hrow, hon⟩, hedits⟩
    · cases hf

theorem Gpu.isOn_of_mem_siteFindings {s : Source} {i : Nat} {pending : Bool} {sites : List Site}
    {f : Finding} (h : f ∈ (siteFindings s i pending sites).1) : f.IsOn i ∧ f.edits = [] := by
  induction sites generalizing pending with
  | nil => cases h
  | cons site rest ih =>
    -- what is reported at the first site
    have hhere : ∀ {missing : Bool}, f ∈ (site.retired?.map fun names =>
        retiredFinding s i names.1 names.2).toList ++
        (if missing then [contextFinding s i site.token.text] else []) →
        f.IsOn i ∧ f.edits = [] := by
      intro missing h
      rcases List.mem_append.1 h with h | h
      · obtain ⟨names, -, rfl⟩ := Option.map_eq_some_iff.1 (Option.mem_toList.1 h)
        exact ⟨rfl, rfl⟩
      · rw [eq_of_mem_ite h]
        exact ⟨rfl, rfl⟩
    unfold siteFindings at h
    simp only at h
    split at h
    · rcases List.mem_append.1 h with h | h
      · exact hhere h
      · obtain rfl := List.mem_singleton.1 h
        exact ⟨rfl, rfl⟩
    · rcases List.mem_append.1 h with h | h
      · exact hhere h
      · exact ih h

theorem Gpu.exists_isOn_of_mem_rowFindings {s : Source} {pending : Bool} {rows : List (Row × Nat)}
    {f : Finding} (h : f ∈ rowFindings s pending rows) :
    ∃ row i, (row, i) ∈ rows ∧ f.IsOn i ∧ f.edits = [] := by
  induction rows generalizing pending with
  | nil => cases h
  | cons head rest ih =>
    obtain ⟨row, i⟩ := head
    rcases List.mem_append.1 h with h | h
    · exact ⟨row, i, List.mem_cons_self, isOn_of_mem_siteFindings h⟩
    · obtain ⟨row', j, hmem, hon⟩ := ih h
      exact ⟨row', j, List.mem_cons_of_mem _ hmem, hon⟩

theorem Gpu.notes {s : Source} {f : Finding} (h : f ∈ findings s) : s.Notes f := by
  obtain ⟨row, i, hrow, hon, hedits⟩ := exists_isOn_of_mem_rowFindings h
  exact ⟨⟨i, row, hrow, hon⟩, hedits⟩

theorem Memory.notes {s : Source} {f : Finding} (h : f ∈ findings s) : s.Notes f := by
  obtain ⟨fn, hfn, hf⟩ := List.mem_flatMap.1 h
  split at hf
  · cases hf
  · rcases List.mem_append.1 hf with hf | hf
    · -- a leak is reported on the header of the function
      obtain ⟨row, hrow, hcan, -, -⟩ := Source.of_mem_functions hfn
      simp only [Row.canDeclare, Bool.and_eq_true, Bool.not_eq_true'] at hcan
      unfold leakFindings at hf
      split at hf
      · cases hf
      · obtain ⟨p, -, rfl⟩ := List.mem_map.1 hf
        exact ⟨⟨fn.block.header, row, Source.mem_visible_iff.2 ⟨hrow, hcan.1⟩, rfl⟩, rfl⟩
    · obtain ⟨⟨row, i⟩, hrow, halloc⟩ := List.mem_filterMap.1 hf
      simp only at halloc
      split at halloc
      · cases halloc
      · rename_i hex
        obtain ⟨name, -, hname⟩ := Option.bind_eq_some_iff.1 halloc
        split at hname
        · cases hname
        · cases hname
          exact ⟨⟨i, row, Source.mem_visible_iff.2 ⟨(Source.mem_zipIdx_slice_iff.1 hrow).2.2,
            Bool.eq_false_iff.2 hex⟩, rfl⟩, rfl⟩

/-! ## Documentation rules -/

/-- The verdicts on docstrings, which are reported where the docstring starts. -/
def Docs.qualityIds : List Text :=
  ["DOC_TOO_BRIEF", "DOC_MISSING_DESCRIPTION", "DOC_MISSING_SECTIONS"]

theorem Docs.breach_mem_qualityIds (v : Docstring.Verdict) : (breach v).1 ∈ qualityIds := by
  cases v <;> decide

/-- Line `i` declares `owner`, with a header that ends with line `headerEnd` and a body on lines of
its own. -/
structure Docs.Declares (s : Source) (i headerEnd : Nat) (owner : Owner) : Prop where
  canDeclare : ∃ row, s.rows[i]? = some row ∧ row.canDeclare = true
  declared : Owner.at? s.lines i = some owner
  ends : Block.headerEnd? s.lines i = some headerEnd
  colon : ∃ row, s.rows[headerEnd]? = some row ∧ Text.endsWith row.code ":" = true

/-- The documentation rules look at declarations with a body on lines of its own. -/
theorem Docs.mem_findings_iff {s : Source} {f : Finding} :
    f ∈ findings s ↔ ∃ i headerEnd owner, Declares s i headerEnd owner ∧
      f ∈ ownerFindings s s.lines i headerEnd owner := by
  constructor
  · intro h
    obtain ⟨⟨row, i⟩, hrow, hf⟩ := List.mem_flatMap.1 h
    simp only at hf
    split at hf
    · rename_i hcan
      unfold lineFindings at hf
      split at hf
      · rename_i owner headerEnd howner hend
        split at hf
        · rename_i hcolon
          exact ⟨i, headerEnd, owner,
            ⟨⟨row, List.mem_zipIdx_iff_getElem?.1 hrow, hcan⟩, howner, hend,
              (Option.any_eq_true _ _).1 hcolon⟩, hf⟩
        · cases hf
      · cases hf
    · cases hf
  · rintro ⟨i, headerEnd, owner, ⟨⟨row, hrow, hcan⟩, howner, hend, hcolon⟩, hf⟩
    refine List.mem_flatMap.2 ⟨(row, i), List.mem_zipIdx_iff_getElem?.2 hrow, ?_⟩
    simp only [hcan, if_true, lineFindings, howner, hend, (Option.any_eq_true _ _).2 hcolon]
    exact hf

/-- They report that the docstring is missing, or judge the one behind the header. -/
theorem Docs.ownerFindings_cases {s : Source} {lines : List Text} {i headerEnd : Nat}
    {owner : Owner} {f : Finding} (h : f ∈ ownerFindings s lines i headerEnd owner) :
    (∃ indent, f = missingFinding s lines i headerEnd indent owner) ∨
      ∃ doc < lines.length, f ∈ qualityFindings s lines owner doc := by
  unfold ownerFindings at h
  simp only at h
  split at h
  · rename_i line hline
    split at h
    · split at h
      · refine .inr ⟨_, ?_, h⟩
        -- behind the blank lines there is the line of the docstring
        generalize hafter : lines.drop (headerEnd + 1) = after at hline
        have hsplit := congrArg List.length
          (List.takeWhile_append_dropWhile (p := Line.isBlank) (l := after))
        have hlen := congrArg List.length hafter
        have hpos : 0 < (after.dropWhile Line.isBlank).length := by
          rw [List.length_pos_iff]
          rintro hnil
          rw [hnil] at hline
          cases hline
        simp only [List.length_append, List.length_drop] at hsplit hlen
        omega
      · exact .inl ⟨_, List.mem_singleton.1 h⟩
    · exact .inl ⟨_, List.mem_singleton.1 h⟩
  · exact .inl ⟨_, List.mem_singleton.1 h⟩

theorem Docs.isOn_missingFinding (s : Source) (lines : List Text) (i headerEnd : Nat)
    (indent : UInt32) (owner : Owner) :
    (missingFinding s lines i headerEnd indent owner).IsOn i := by
  cases owner <;> rfl

theorem Docs.of_mem_qualityFindings {s : Source} {lines : List Text} {owner : Owner} {doc : Nat}
    {f : Finding} (h : f ∈ qualityFindings s lines owner doc) :
    f.IsOn doc ∧ f.id ∈ qualityIds ∧ f.edits = [] := by
  unfold qualityFindings at h
  simp only at h
  split at h
  · cases h
  · obtain rfl := List.mem_singleton.1 h
    exact ⟨rfl, breach_mem_qualityIds _, rfl⟩

/-- The finding is a verdict on a docstring of the file. -/
def Docs.Judges (s : Source) (f : Finding) : Prop :=
  f.id ∈ qualityIds ∧ ∃ doc < s.rows.length, f.IsOn doc

theorem Docs.shows_or_judges {s : Source} {f : Finding} (h : f ∈ findings s) :
    s.Shows f ∨ Judges s f := by
  obtain ⟨i, headerEnd, owner, hdeclares, hf⟩ := mem_findings_iff.1 h
  obtain ⟨row, hrow, hcan⟩ := hdeclares.canDeclare
  simp only [Row.canDeclare, Bool.and_eq_true, Bool.not_eq_true'] at hcan
  rcases ownerFindings_cases hf with ⟨indent, rfl⟩ | ⟨doc, hdoc, hf⟩
  · exact .inl ⟨i, row, Source.mem_visible_iff.2 ⟨hrow, hcan.1⟩, isOn_missingFinding _ _ _ _ _ _⟩
  · obtain ⟨hon, hid, -⟩ := of_mem_qualityFindings hf
    rw [Source.lines, List.length_map] at hdoc
    exact .inr ⟨hid, doc, hdoc, hon⟩

/-! ## Variable rules -/

/-- Line `j` belongs to the header of a function that starts on a line that is not excluded, and
names an outdated argument convention. -/
def Variables.ConventionSite (s : Source) (j : Nat) : Prop :=
  ∃ i row r t, (row, i) ∈ s.visible ∧ row.closed = 0 ∧
    (Declaration.functionName? row.text).isSome = true ∧
    i ≤ j ∧ j ≤ (Block.headerEnd? s.lines i).getD i ∧
    s.rows[j]? = some r ∧ t ∈ r.codeTokens ∧ (currentConvention? t).isSome = true

theorem Variables.ConventionSite.lt_length {s : Source} {j : Nat} (h : ConventionSite s j) :
    j < s.rows.length := by
  obtain ⟨i, row, r, t, -, -, -, -, -, hr, -⟩ := h
  exact (List.getElem?_eq_some_iff.1 hr).1

/-- The findings about the header of a function are all of one rule, which asks for no edit. -/
theorem Variables.of_mem_headerFindings {s : Source} {lines : List Text} {row : Row} {i : Nat}
    {f : Finding} (h : f ∈ headerFindings s lines row i) :
    f.id = "DEPRECATED_ARG_CONVENTION" ∧ f.edits = [] := by
  unfold headerFindings at h
  split at h
  · obtain ⟨⟨r, j⟩, -, hc⟩ := List.mem_flatMap.1 h
    obtain ⟨t, -, hconv⟩ := List.mem_filterMap.1 hc
    obtain ⟨word, -, rfl⟩ := Option.map_eq_some_iff.1 hconv
    exact ⟨rfl, rfl⟩
  · cases h

theorem Variables.shows_or_site {s : Source} {f : Finding} (h : f ∈ findings s) :
    s.Shows f ∨ ∃ j, ConventionSite s j ∧ f.IsOn j := by
  obtain ⟨⟨row, i⟩, hrow, hf⟩ := List.mem_flatMap.1 h
  rcases List.mem_append.1 hf with hf | hf
  · obtain rfl := eq_of_mem_ite hf
    exact .inl ⟨i, row, hrow, rfl⟩
  · unfold headerFindings at hf
    split at hf
    · rename_i hfn
      simp only [Bool.and_eq_true, decide_eq_true_eq] at hfn
      obtain ⟨⟨r, j⟩, hr, hc⟩ := List.mem_flatMap.1 hf
      obtain ⟨hij, hj, hget⟩ := Source.mem_zipIdx_slice_iff.1 hr
      obtain ⟨t, ht, hconv⟩ := List.mem_filterMap.1 hc
      obtain ⟨word, hword, rfl⟩ := Option.map_eq_some_iff.1 hconv
      exact .inr ⟨j, ⟨i, row, r, t, hrow, hfn.1, hfn.2, hij, by omega, hget, ht, by simp [hword]⟩,
        rfl⟩
    · cases hf

theorem Variables.exists_finding_of_site {s : Source} {j : Nat} (h : ConventionSite s j) :
    ∃ f ∈ findings s, f.IsOn j ∧ f.severity ≠ .observation ∧ f.id ∉ Docs.qualityIds := by
  obtain ⟨i, row, r, t, hrow, hclosed, hfn, hij, hj, hget, ht, hconv⟩ := h
  obtain ⟨word, hword⟩ := Option.isSome_iff_exists.1 hconv
  have hid : Text.ofString "DEPRECATED_ARG_CONVENTION" ∉ Docs.qualityIds := by decide
  refine ⟨Finding.onLine "DEPRECATED_ARG_CONVENTION" .variableDeclaration .warning s.path j
      ("Argument convention '" ++ t.text ++ "' is deprecated") ("Use '" ++ word ++ "' instead") [],
    List.mem_flatMap.2 ⟨(row, i), hrow, List.mem_append_right _ ?_⟩, rfl, nofun, hid⟩
  unfold headerFindings
  rw [if_pos (by simp [hclosed, hfn])]
  refine List.mem_flatMap.2 ⟨(r, j), Source.mem_zipIdx_slice_iff.2 ⟨hij, by omega, hget⟩, ?_⟩
  refine List.mem_filterMap.2 ⟨t, ht, ?_⟩
  rw [hword]
  rfl

/-! ## Struct rules -/

/-- Line `j` declares a trivial lifecycle method of a struct that starts on a line that is not
excluded, and the struct does not ask for both traits at once. -/
def Structs.LifecycleSite (s : Source) (j : Nat) : Prop :=
  ∃ i struct body op offset, Declared s i struct body ∧
    Lifecycle.method? s.lines body op = some ⟨offset, true⟩ ∧
    Traits.addsBoth struct (Lifecycle.ofBlock s.lines body) = false ∧ j = i + offset

theorem Structs.LifecycleSite.lt_length {s : Source} {j : Nat} (h : LifecycleSite s j) :
    j < s.rows.length := by
  obtain ⟨i, struct, body, op, offset, ⟨row, -, -, -, -, hbody, -⟩, hm, -, rfl⟩ := h
  obtain ⟨line, hcode, -⟩ := of_method? hbody hm
  have hget := (Block.mem_codeLines_iff.1 hcode).2.2.1
  have := (List.getElem?_eq_some_iff.1 hget).1
  rwa [Source.lines, List.length_map] at this

theorem Structs.shows_or_site {s : Source} {f : Finding} (h : f ∈ findings s) :
    s.Shows f ∨ ∃ j, LifecycleSite s j ∧ f.IsOn j := by
  rcases findings_cases h with ⟨hshows, -⟩ | ⟨i, struct, body, hd, hf⟩
  · exact .inl hshows
  · have ⟨row, hrow, _⟩ := hd
    obtain rfl := hd.header_eq
    rcases (Traits.findings_cases hf).1 with ⟨op, offset, hm, hb, hon⟩ | hon
    · rw [Lifecycle.methodFor_ofBlock] at hm
      exact .inr ⟨_, ⟨struct.header, struct, body, op, offset, hd, hm, hb, rfl⟩, hon⟩
    · exact .inl ⟨struct.header, row, hrow, hon⟩

theorem Structs.exists_finding_of_site {s : Source} {j : Nat} (h : LifecycleSite s j) :
    ∃ f ∈ findings s, f.IsOn j ∧ f.severity ≠ .observation ∧ f.id ∉ Docs.qualityIds := by
  obtain ⟨i, struct, body, op, offset, hd, hm, hb, rfl⟩ := h
  rw [← Lifecycle.methodFor_ofBlock] at hm
  obtain ⟨f, hf, hon⟩ := Traits.exists_finding_of_trivial s hm hb
  obtain ⟨hid, hsev⟩ := (Traits.findings_cases hf).2.1
  refine ⟨f, mem_findings_of_declared hd hf, hd.header_eq ▸ hon, by rw [hsev]; nofun, ?_⟩
  have hdisjoint : ∀ id ∈ Traits.ids, id ∉ Docs.qualityIds := by decide
  exact hdisjoint f.id hid

end Rule

/-! ## All rules -/

namespace Checker

open Rule

/-- A check reports what the rules have to say, less what the options leave out. -/
theorem mem_check_findings {o : Options} {path text : Text} {f : Finding} :
    f ∈ (check o path text).findings ↔
      f ∈ (allFindings (Source.ofText path text o.checkDocs)).filter (keeps o) := by
  simp [check, Report.grade, Report.addAll, Report.start, byLine]

/-- A line on which a rule reports although it tested the exclusion of another one. -/
def FarSite (s : Source) (j : Nat) : Prop :=
  Variables.ConventionSite s j ∨ Structs.LifecycleSite s j

theorem FarSite.lt_length {s : Source} {j : Nat} (h : FarSite s j) : j < s.rows.length :=
  h.elim (·.lt_length) (·.lt_length)

/-- A finding is reported on a line that is not excluded or on a far site, or it is a verdict on a
docstring. -/
theorem report_cases {s : Source} {f : Finding} (h : f ∈ allFindings s) :
    s.Shows f ∨ (∃ j, FarSite s j ∧ f.IsOn j) ∨ Docs.Judges s f := by
  obtain ⟨family, -, hf⟩ := List.mem_flatMap.1 h
  match family, hf with
  | .imports, hf => exact .inl (Imports.shows hf)
  | .structs, hf =>
    rcases Structs.shows_or_site hf with hshows | ⟨j, hj, hon⟩
    · exact .inl hshows
    · exact .inr (.inl ⟨j, .inr hj, hon⟩)
  | .variables, hf =>
    rcases Variables.shows_or_site hf with hshows | ⟨j, hj, hon⟩
    · exact .inl hshows
    · exact .inr (.inl ⟨j, .inl hj, hon⟩)
  | .gpu, hf => exact .inl (Gpu.notes hf).1
  | .docs, hf => exact (Docs.shows_or_judges hf).imp_right .inr
  | .errors, hf => exact .inl (Errors.notes hf).1
  | .performance, hf => exact .inl (Performance.notes hf).1
  | .memory, hf => exact .inl (Memory.notes hf).1

theorem shows_or_farSite {s : Source} {f : Finding} (h : f ∈ allFindings s)
    (hid : f.id ∉ Docs.qualityIds) : s.Shows f ∨ ∃ j, FarSite s j ∧ f.IsOn j :=
  (report_cases h).imp_right fun h => h.resolve_right fun hjudges => hid hjudges.1

/-- Every finding is reported on a line of the file. -/
theorem exists_isOn {s : Source} {f : Finding} (h : f ∈ allFindings s) :
    ∃ i < s.rows.length, f.IsOn i := by
  rcases report_cases h with ⟨i, row, hrow, hon⟩ | ⟨j, hj, hon⟩ | ⟨-, hdoc⟩
  · exact ⟨i, Source.lt_length_of_mem_visible hrow, hon⟩
  · exact ⟨j, hj.lt_length, hon⟩
  · exact hdoc

theorem exists_finding_of_farSite {s : Source} {j : Nat} (h : FarSite s j) :
    ∃ f ∈ allFindings s, f.IsOn j ∧ f.severity ≠ .observation ∧ f.id ∉ Docs.qualityIds := by
  rcases h with h | h
  · obtain ⟨f, hf, hrest⟩ := Variables.exists_finding_of_site h
    exact ⟨f, List.mem_flatMap.2 ⟨.variables, by decide, hf⟩, hrest⟩
  · obtain ⟨f, hf, hrest⟩ := Structs.exists_finding_of_site h
    exact ⟨f, List.mem_flatMap.2 ⟨.structs, by decide, hf⟩, hrest⟩

/-- **An excluded line is reported on just when it is a far site**, verdicts on docstrings apart. -/
theorem reported_excluded_iff {o : Options} {path text : Text} {j : Nat}
    (hsize : text.lines.length ≤ UInt32.size)
    (hex : (Source.ofText path text o.checkDocs).excluded j = true) :
    (∃ f ∈ (check o path text).findings, f.id ∉ Docs.qualityIds ∧ (f.line - 1).toNat = j) ↔
      FarSite (Source.ofText path text o.checkDocs) j := by
  have hrows := Source.length_rows path text o.checkDocs
  constructor
  · rintro ⟨f, hf, hid, hline⟩
    have hall := (List.mem_filter.1 (mem_check_findings.1 hf)).1
    rcases shows_or_farSite hall hid with ⟨i, row, hrow, hon⟩ | ⟨i, hi, hon⟩
    · -- a finding on a line that is not excluded is no finding on line `j`
      have hlt := Source.lt_length_of_mem_visible hrow
      obtain rfl : i = j := by rw [← hline, hon.toNat_line (by omega)]
      rw [Source.excluded_of_mem_visible hrow] at hex
      cases hex
    · have hlt := hi.lt_length
      obtain rfl : i = j := by rw [← hline, hon.toNat_line (by omega)]
      exact hi
  · intro h
    have hlt := h.lt_length
    obtain ⟨f, hf, hon, hsev, hid⟩ := exists_finding_of_farSite h
    have hkeep : keeps o f = true := by simp [keeps, hsev]
    exact ⟨f, mem_check_findings.2 (List.mem_filter.2 ⟨hf, hkeep⟩), hid, hon.toNat_line (by omega)⟩

/-- **What is reported lies outside the excluded lines** exactly when no far site is excluded: no
line of the header of a visible function that names an outdated convention, and no line of a
trivial lifecycle method of a visible struct. -/
theorem reports_visible_iff (o : Options) (path text : Text)
    (hsize : text.lines.length ≤ UInt32.size) :
    (∀ f ∈ (check o path text).findings, f.id ∉ Docs.qualityIds →
        (Source.ofText path text o.checkDocs).excluded (f.line - 1).toNat = false) ↔
      ∀ j, FarSite (Source.ofText path text o.checkDocs) j →
        (Source.ofText path text o.checkDocs).excluded j = false := by
  constructor
  · intro h j hfar
    cases hex : (Source.ofText path text o.checkDocs).excluded j with
    | false => rfl
    | true =>
      obtain ⟨f, hf, hid, rfl⟩ := (reported_excluded_iff hsize hex).2 hfar
      rw [h f hf hid] at hex
      cases hex
  · intro h f hf hid
    cases hex : (Source.ofText path text o.checkDocs).excluded (f.line - 1).toNat with
    | false => rfl
    | true =>
      have hfar := (reported_excluded_iff hsize hex).1 ⟨f, hf, hid, rfl⟩
      rw [h _ hfar] at hex
      cases hex

/-- A file with a docstring on which an outdated convention is reported, behind the docstring. -/
theorem reports_visible_behind_docstring :
    let text : Text := "fn f():\n  \"\"\"\n  inout\n  \"\"\"\nfn g(inout x: Int):\n  pass\n"
    let s := Source.ofText "a.mojo" text false
    text.lines.length ≤ UInt32.size ∧ s.excluded 2 = true ∧
      (∃ f ∈ (check .standard "a.mojo" text).findings, f.id = "DEPRECATED_ARG_CONVENTION") ∧
      ∀ j, FarSite s j → s.excluded j = false := by
  repeat rw [Text.ofString_ofList]
  intro text s
  have hsize : text.lines.length ≤ UInt32.size := by decide +kernel
  refine ⟨hsize, by decide +kernel, ?_, (reports_visible_iff .standard "a.mojo" text hsize).1 ?_⟩
  · simp only [mem_check_findings]
    decide +kernel
  · simp only [mem_check_findings]
    decide +kernel

/-- Both kinds of far sites can be excluded: a word inside a literal that a function header holds,
and a method that the count of delimiters puts inside a literal. -/
theorem reports_on_excluded_lines :
    (let text : Text := "fn f(x: Int,\n  y: S = \"\"\"\n  inout\n  \"\"\"\n):\n  pass\n"
      ∃ f ∈ (check .standard "a.mojo" text).findings, f.id ∉ Docs.qualityIds ∧
        (Source.ofText "a.mojo" text false).excluded (f.line - 1).toNat = true) ∧
    (let text : Text := "struct S(Copyable):\n  \"\"\"\n  doc x = \"\"\"\n" ++
        "  fn __copyinit__(out self, existing: Self):\n    self.x = existing.x\n"
      ∃ f ∈ (check .standard "a.mojo" text).findings, f.id ∉ Docs.qualityIds ∧
        (Source.ofText "a.mojo" text false).excluded (f.line - 1).toNat = true) := by
  repeat rw [Text.ofString_ofList]
  simp only [mem_check_findings]
  decide +kernel

end Checker

end MojoLint
