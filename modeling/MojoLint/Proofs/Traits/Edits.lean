import MojoLint.Proofs.Token.Slices
import MojoLint.Proofs.Traits.Removal

/-!
# What the edits about traits do to a text

Two kinds of edits come with a finding about traits. One declares traits: the walk through the
header of the struct stops right at a token or right behind one, so the traits go into a line
(`Declares`). The other deletes a trivial method: whole lines, and an assignment among them, since a
trivial method assigns at least one field (`Removes`).
-/

namespace MojoLint

namespace Traits

/-! ## Declaring traits -/

/-- What a walk can still lead to satisfies `P`. -/
def Walked.All (P : UInt32 → Prop) : Walked → Prop
  | .listEnd offset => P offset
  | .onward w => ∀ spot ∈ w.spot, P spot

/-- The ends of the tokens of a line that starts at `start` satisfy `P`. -/
def EndsIn (P : UInt32 → Prop) (start : UInt32) (ts : List Token) : Prop :=
  ∀ t ∈ ts, P (start + t.column) ∧ P (start + t.column + t.text.length.toUInt32)

theorem length_of_isCloser {t : Token} (h : t.isCloser = true) : t.text.length.toUInt32 = 1 := by
  simp only [Token.isCloser, Token.isPunct, Bool.or_eq_true, Bool.and_eq_true, beq_iff_eq] at h
  rcases h with ⟨-, h⟩ | ⟨-, h⟩ <;> rw [h] <;> rfl

/-- A walk goes from token to token, so it leads to the ends of tokens only. -/
theorem walkLine_all {P : UInt32 → Prop} {name : Text} {start : UInt32} {w : Walk}
    {ts : List Token} (hts : EndsIn P start ts) (hw : ∀ spot ∈ w.spot, P spot) :
    (walkLine name start w ts).All P := by
  induction ts generalizing w with
  | nil => exact hw
  | cons t ts ih =>
    obtain ⟨⟨hfront, hback⟩, hrest⟩ := List.forall_mem_cons.1 hts
    have hnew : ∀ {p : UInt32}, P p → ∀ spot ∈ some p, P spot := by
      rintro p hp _ ⟨⟩
      exact hp
    unfold walkLine
    simp only
    split
    · split
      · exact ih hrest (hnew hback)
      · exact ih hrest hw
    · split
      · exact ih hrest hw
      · split
        · rename_i hcloser
          rw [length_of_isCloser hcloser] at hback
          split
          · split
            · exact hfront
            · exact ih hrest (hnew hback)
            · exact ih hrest hw
          · exact ih hrest hw
        · split
          · exact hw
          · exact ih hrest hw

theorem walkRows_all {P : UInt32 → Prop} {name : Text} {w : Walk} {rows : List Row}
    (hrows : ∀ r ∈ rows, EndsIn P r.offset r.tokens) (hw : ∀ spot ∈ w.spot, P spot) :
    (walkRows name w rows).All P := by
  induction rows generalizing w with
  | nil => exact hw
  | cons r rows ih =>
    obtain ⟨hr, hrest⟩ := List.forall_mem_cons.1 hrows
    have hline := @walkLine_all P name r.offset w r.tokens hr hw
    unfold walkRows
    split
    · rename_i offset hwalk
      rw [hwalk] at hline
      exact hline
    · rename_i next hwalk
      rw [hwalk] at hline
      exact ih hrest hline

/-- The edit puts traits into line `i` of the text, at the column `c`. -/
inductive Declares (t : Text) (e : Edit) : Prop
  | intro (i c : Nat) (l : Line) (traits before after : Text)
      (line : (Line.split t)[i]? = some l) (column : c ≤ l.text.length)
      (offset : e.offset.toNat = Line.offsetAt (Line.split t) i + c) (length : e.length = 0)
      (declarable : traits ∈ declarable)
      (around : (before, after) ∈ [([], []), (", ", []), ("(", ")")])
      (replacement : e.replacement = before ++ traits ++ after)

/-- A place on a line, as the word that stands for its offset. -/
def IsPlace (t : Text) (p : UInt32) : Prop :=
  ∃ i c l, (Line.split t)[i]? = some l ∧ c ≤ l.text.length ∧
    p = (Line.offsetAt (Line.split t) i + c).toUInt32

section

variable {path t : Text} {checkDocs : Bool}

theorem endsIn_isPlace {i : Nat} {row : Row}
    (h : (Source.ofText path t checkDocs).rows[i]? = some row) :
    EndsIn (IsPlace t) row.offset row.tokens := by
  obtain ⟨l, hl, -, hoffset, htokens⟩ := Source.exists_line_of_row h
  intro u hu
  rw [htokens] at hu
  obtain ⟨before, after, hbytes, hcolumn⟩ := Token.exists_slice_of_mem_ofClosingLine hu
  have hlen := congrArg List.length hbytes
  simp only [List.length_append] at hlen
  rw [hoffset, hcolumn]
  constructor
  · exact ⟨i, before.length, l, hl, by omega, by simp [Nat.toUInt32]⟩
  · exact ⟨i, before.length + u.text.length, l, hl, by omega,
      by simp [Nat.toUInt32, UInt32.add_assoc]⟩

theorem declares_of_inserts (hsize : t.length < UInt32.size) {struct : Struct} {e : Edit}
    (hheader : struct.header < t.lines.length)
    (h : Inserts (Source.ofText path t checkDocs) struct e) : Declares t e := by
  obtain ⟨traits, htraits, rfl⟩ := h
  have hplace : ∀ {p}, IsPlace t p → ∀ {file replacement note before after},
      (before, after) ∈ ([([], []), (", ", []), ("(", ")")] : List (Text × Text)) →
      replacement = before ++ traits ++ after → Declares t ⟨file, p, 0, replacement, note⟩ := by
    rintro _ ⟨i, c, l, hl, hc, rfl⟩ file replacement note before after haround hrep
    have hle := Line.offsetAt_add_length_le hl
    exact .intro i c l traits before after hl hc (Number.toNat_word (by omega)) rfl htraits haround
      hrep
  have hstart : IsPlace t ((Source.ofText path t checkDocs).offsetOf struct.header) := by
    have hlen : struct.header < (Line.split t).length := by rwa [← Text.length_lines]
    rw [Source.offsetOf_ofText (Nat.le_of_lt hheader)]
    exact ⟨_, 0, _, List.getElem?_eq_getElem hlen, Nat.zero_le _, rfl⟩
  unfold insertion
  simp only
  generalize hstop : (Block.headerEnd? (Source.ofText path t checkDocs).lines struct.header).getD
    struct.header + 1 = stop
  have hwalk : (walkRows struct.name ⟨0, none, none⟩
      ((Source.ofText path t checkDocs).slice struct.header stop)).All (IsPlace t) := by
    refine walkRows_all ?_ (fun _ h => by cases h)
    intro r hr
    obtain ⟨j, hj⟩ := List.mem_iff_getElem?.1 hr
    have hrow : (r, struct.header + j) ∈
        ((Source.ofText path t checkDocs).slice struct.header stop).zipIdx struct.header := by
      rw [List.mem_zipIdx_iff_le_and_getElem?_sub]
      exact ⟨Nat.le_add_right _ _, by simpa using hj⟩
    exact endsIn_isPlace (Source.mem_zipIdx_slice_iff.1 hrow).2.2
  split
  · rename_i offset hend
    rw [hend] at hwalk
    split
    · exact @hplace _ hwalk _ _ _ [] [] (by decide) (by simp)
    · exact @hplace _ hwalk _ _ _ ", " [] (by decide) (by simp)
  · rename_i w hend
    rw [hend] at hwalk
    have hspot : IsPlace t (w.spot.getD
        ((Source.ofText path t checkDocs).offsetOf struct.header)) := by
      cases hw : w.spot with
      | none => exact hstart
      | some spot => exact hwalk spot hw
    exact @hplace _ hspot _ _ _ "(" ")" (by decide) rfl

end

/-! ## Removing methods -/

/-- The edit deletes the lines from `first` up to `stop`, and there is an assignment on one of
them. -/
inductive Removes (t : Text) (e : Edit) : Prop
  | intro (first k stop : Nat) (line : Text) (from_first : first ≤ k) (upto : k < stop)
      (within : stop ≤ t.lines.length) (at_k : t.lines[k]? = some line)
      (assigns : Byte.equals ∈ line)
      (offset : e.offset.toNat = Line.offsetAt (Line.split t) first)
      (stop_eq : e.offset.toNat + e.length.toNat = Line.offsetAt (Line.split t) stop)
      (replacement : e.replacement = [])

theorem equals_mem_of_assignedField? {op : Lifecycle.Operation} {src line : Text}
    (h : (Lifecycle.assignedField? op src line).isSome = true) : Byte.equals ∈ line := by
  unfold Lifecycle.assignedField? at h
  split at h
  · rename_i self dot field sign source point same rest htokens
    split at h
    · rename_i hcond
      simp only [Bool.and_eq_true, Token.isPunct, beq_iff_eq] at hcond
      have hsign : sign.text = [Byte.equals] := hcond.1.1.1.1.2.2
      obtain ⟨comment, hall⟩ := Token.exists_append_dropComment (Token.ofLine line)
      have hmem : sign ∈ Token.ofLine line := by
        rw [hall, htokens]
        simp
      obtain ⟨before, after, hline, -⟩ := (Token.laid_ofLine line).exists_slice hmem
      rw [hline, hsign]
      simp
    · cases h
  · cases h

/-- A trivial method assigns a field. -/
theorem exists_assignment {lines : List Text} {b : Block} {op : Lifecycle.Operation}
    {fields : List Text} (h : Lifecycle.isTrivial lines b op fields = true) :
    ∃ k line, b.first ≤ k ∧ k < b.stop ∧ lines[k]? = some line ∧ Byte.equals ∈ line := by
  unfold Lifecycle.isTrivial at h
  simp only at h
  split at h
  · rename_i assigned hassigned
    cases hcode : b.codeLines lines with
    | nil =>
      -- no code line assigns no field, and that does not cover the struct
      rw [hcode] at hassigned
      cases hassigned
      simp [Lifecycle.covers] at h
    | cons first rest =>
      obtain ⟨k, line⟩ := first
      have hmem : (k, line) ∈ b.codeLines lines := by
        rw [hcode]
        exact List.mem_cons_self
      obtain ⟨hfirst, hstop, hline, -⟩ := Block.mem_codeLines_iff.1 hmem
      have hfield := isSome_assignedField? hassigned line (List.mem_map.2 ⟨_, hmem, rfl⟩)
      exact ⟨k, line, hfirst, hstop, hline, equals_mem_of_assignedField? hfield⟩
  · cases h

theorem removes_of_isTrivial (path : Text) {t : Text} (checkDocs : Bool)
    (hsize : t.length < UInt32.size) {m : Nat} {b : Block} {op : Lifecycle.Operation}
    {fields : List Text} (hb : Block.at? t.lines m = some b)
    (htrivial : Lifecycle.isTrivial t.lines b op fields = true) :
    Removes t (removal (Source.ofText path t checkDocs) m op.method) := by
  obtain ⟨-, hend, hfirst, -⟩ := Block.at?_spec hb
  have hm := (Block.headerEnd?_spec hend).1
  have hup := firstLine_le t.lines m
  obtain ⟨k, line, hk, hkstop, hline, hequals⟩ := exists_assignment htrivial
  obtain ⟨hoffset, hstop⟩ := @removal_range path t checkDocs hsize m b op.method hb
  exact .intro _ k b.stop line (by omega) hkstop (firstLine_lt_stop hb).2 hline hequals hoffset
    hstop rfl

/-- **An edit about traits** declares traits on a line or removes a trivial method. -/
theorem declares_or_removes {path t : Text} {checkDocs : Bool} (hsize : t.length < UInt32.size)
    {f : Finding} {e : Edit} (hf : f ∈ Rule.Structs.findings (Source.ofText path t checkDocs))
    (he : e ∈ f.edits) : f.id ∈ ids ∧ e.file = path ∧ (Declares t e ∨ Removes t e) := by
  rcases Rule.Structs.findings_cases hf with ⟨-, hnone⟩ | ⟨i, struct, body, hd, hf⟩
  · rw [hnone] at he
    cases he
  · obtain ⟨-, ⟨hid, -⟩, hedits⟩ := findings_cases hf
    refine ⟨hid, ?_⟩
    rcases hedits e he with hinserts | hdeletes
    · have hheader : struct.header < t.lines.length := by
        have ⟨row, hrow, _⟩ := hd
        have hlt := Source.lt_length_of_mem_visible hrow
        rwa [Source.length_rows, ← hd.header_eq] at hlt
      have hdeclares := declares_of_inserts hsize hheader hinserts
      obtain ⟨traits, -, rfl⟩ := hinserts
      refine ⟨?_, .inl hdeclares⟩
      unfold insertion
      simp only
      split <;> rfl
    · obtain ⟨op, m, b, line, fields, -, -, hb, htrivial, rfl⟩ :=
        exists_removal_of_deletes hd hdeletes
      rw [Source.lines_ofText] at hb htrivial
      exact ⟨rfl, .inr (removes_of_isTrivial path checkDocs hsize hb htrivial)⟩

end Traits

end MojoLint
