import MojoLint.Proofs.Balance.Scan
import MojoLint.Proofs.Block.Header
import MojoLint.Proofs.Traits.Reports

/-!
# What the removal of a method deletes

The edit that removes a trivial method takes away whole lines: the decorators above the method, its
header and its body. A deleted line is harmless when it is a part of the method that the compiler
writes anew, or no code at all (`Harmless`).

Two readings of the lines meet here. The structure scan lexes them and follows docstrings from the
start of the text. The test for a trivial method counts delimiters, from the first line of the body
on, and looks at no line that holds one. So the test examines most of the deleted lines, and those
are harmless; the others are listed by `Unexamined`.
-/

namespace MojoLint

/-- The edit replaces a byte of line `k`, its ending included. -/
def Edit.Touches (e : Edit) (t : Text) (k : Nat) : Prop :=
  Line.offsetAt (Line.split t) k < e.offset.toNat + e.length.toNat ∧
    e.offset.toNat < Line.offsetAt (Line.split t) (k + 1)

namespace Traits

open Balance (State stateAt insideAt scanned tokensAt)
open Exclusion (delimitersBefore)

/-- A statement starts on line `k`: the scan enters it in code, and no bracket is open. -/
def StartsStatement (lines : List Text) (k : Nat) : Prop := stateAt lines k = .ok State.start

/-- What a deleted line may be when the method on line `m` is removed. -/
inductive Harmless (lines : List Text) (op : Lifecycle.Operation) (m k : Nat) : Prop
  /-- A line of the decorators of the method: from a line `j` on, no statement but decorators. -/
  | decorator (j : Nat) (start : StartsStatement lines j) (from_j : j ≤ k) (above : k < m)
      (decorated : ∀ i, j ≤ i → i < m → StartsStatement lines i →
        decorates ((lines[m]?).getD []) ((lines[i]?).getD []) = true)
  /-- A line of the header of the method. -/
  | header (code : insideAt lines m = false) (below : m ≤ k)
      (on : Block.onHeader 0 ((scanned lines).drop m) (k - m) = true)
  /-- A blank line or a comment. -/
  | blank (code : insideAt lines k = false)
      (blank : Line.isBlankOrComment ((lines[k]?).getD []) = true)
  /-- A line of nothing but strings, parts of strings and comments. -/
  | prose (all : ∀ t ∈ tokensAt lines k, Block.isProse t = true)
  /-- A copy of a field from the source argument of the method. -/
  | fieldCopy (code : insideAt lines k = false)
      (copies : (Lifecycle.assignedField? op
        (Lifecycle.sourceArgument (Block.headerText lines m)) ((lines[k]?).getD [])).isSome = true)

/-- The lines of the method on line `m` with the block `b` that the removal deletes unseen. -/
inductive Unexamined (lines : List Text) (m : Nat) (b : Block) (k : Nat) : Prop
  /-- A line taken for a decorator that goes on with a statement from above the deleted lines. -/
  | decorator (from_first : firstLine lines m ≤ k) (above : k < m)
      (inner : ∀ j, firstLine lines m ≤ j → j ≤ k → ¬ StartsStatement lines j)
  /-- A line of the header that a docstring reaches. -/
  | header (below : m ≤ k) (upto : k ≤ b.headerEnd)
      (docstring : ∃ j, m ≤ j ∧ j ≤ k ∧ insideAt lines j = true)
  /-- The end of the header, with code behind the colon. -/
  | inline (last : k = b.headerEnd)
      (code : Block.onHeader 0 ((lines.drop m).map Token.ofLine) (k - m) = false)
  /-- A line of the body with a delimiter on it. -/
  | delimiter (from_first : b.first ≤ k) (upto : k < b.stop)
      (holds : 0 < Delimiter.count ((lines[k]?).getD []))
  /-- A line of the body that the count puts into a literal and the scan does not. -/
  | parity (from_first : b.first ≤ k) (upto : k < b.stop)
      (odd : delimitersBefore (lines.drop b.first) (k - b.first) % 2 = 1)
      (code : insideAt lines k = false)

/-! ## The deleted lines -/

theorem firstLine_le (lines : List Text) (m : Nat) : firstLine lines m ≤ m := Nat.sub_le _ _

/-- The lines above the method that are deleted with it decorate it. -/
theorem decorates_of_firstLine_le {lines : List Text} {m i : Nat} (hm : m ≤ lines.length)
    (h : firstLine lines m ≤ i) (hi : i < m) :
    decorates ((lines[m]?).getD []) ((lines[i]?).getD []) = true := by
  unfold firstLine at h
  simp only at h
  generalize hrun : (lines.take m).reverse.takeWhile (decorates ((lines[m]?).getD [])) = run at h
  have hall : ∀ line ∈ run, decorates ((lines[m]?).getD []) line = true := by
    rw [← hrun]
    exact List.all_eq_true.1 List.all_takeWhile
  have hlt : m - 1 - i < run.length := by omega
  -- line `i` is line `m - 1 - i` of those above the method, read upwards
  have hget : (lines.take m).reverse[m - 1 - i]? = some run[m - 1 - i] := by
    have hpre : run <+: (lines.take m).reverse := hrun ▸ List.takeWhile_prefix _
    obtain ⟨rest, hrest⟩ := hpre
    rw [← hrest, List.getElem?_append_left hlt, List.getElem?_eq_getElem hlt]
  have hline : lines[i]? = some run[m - 1 - i] := by
    have hlen : (lines.take m).length = m := by rw [List.length_take]; omega
    rw [List.getElem?_reverse (by omega), hlen, List.getElem?_take, if_pos (by omega)] at hget
    rwa [show m - 1 - (m - 1 - i) = i by omega] at hget
  rw [hline, Option.getD_some]
  exact hall _ (List.getElem_mem hlt)

theorem isSome_assignedField? {op : Lifecycle.Operation} {src : Text} {ls fs : List Text}
    (h : Lifecycle.assignedFields? op src ls = some fs) :
    ∀ line ∈ ls, (Lifecycle.assignedField? op src line).isSome = true := by
  induction ls generalizing fs with
  | nil => nofun
  | cons l ls ih =>
    unfold Lifecycle.assignedFields? at h
    split at h
    · rename_i field fields hfield hfields
      intro line hline
      rcases List.mem_cons.1 hline with rfl | hline
      · rw [hfield]
        rfl
      · exact ih hfields line hline
    · cases h

/-! ## Every deleted line -/

section

variable {lines : List Text} {op : Lifecycle.Operation} {m k : Nat} {b : Block}

theorem decorator_cases (hm : m ≤ lines.length) (hfirst : firstLine lines m ≤ k) (hk : k < m) :
    Harmless lines op m k ∨ Unexamined lines m b k := by
  by_cases h : ∃ j, firstLine lines m ≤ j ∧ j ≤ k ∧ StartsStatement lines j
  · obtain ⟨j, hj, hjk, hstart⟩ := h
    refine .inl (.decorator j hstart hjk hk ?_)
    intro i hji him _
    exact decorates_of_firstLine_le hm (Nat.le_trans hj hji) him
  · exact .inr (.decorator hfirst hk fun j hj hjk hstart => h ⟨j, hj, hjk, hstart⟩)

/-- Where no docstring reaches the header, the scan sees the header that the search sees. -/
theorem onHeader_scanned (hk : k < lines.length) (hmk : m ≤ k)
    (hcode : ∀ j, m ≤ j → j ≤ k → insideAt lines j = false) :
    Block.onHeader 0 ((scanned lines).drop m) (k - m) =
      Block.onHeader 0 ((lines.drop m).map Token.ofLine) (k - m) := by
  apply Block.onHeader_congr
  intro i hi
  have hlt : m + i < lines.length := by omega
  have hline : lines[m + i]? = some lines[m + i] := List.getElem?_eq_getElem hlt
  rw [List.getElem?_drop, Balance.getElem?_scanned hlt, List.getElem?_map, List.getElem?_drop,
    Balance.tokensAt_of_code (hcode _ (by omega) (by omega)), hline, Option.getD_some,
    Option.map_some]

theorem header_cases (hb : Block.at? lines m = some b) (hmk : m ≤ k) (hk : k ≤ b.headerEnd) :
    Harmless lines op m k ∨ Unexamined lines m b k := by
  obtain ⟨-, hend, -⟩ := Block.at?_spec hb
  have hlen := (Block.headerEnd?_spec hend).2
  by_cases hdoc : ∃ j, m ≤ j ∧ j ≤ k ∧ insideAt lines j = true
  · exact .inr (.header hmk hk hdoc)
  · have hcode : ∀ j, m ≤ j → j ≤ k → insideAt lines j = false := by
      intro j hj hjk
      exact Bool.eq_false_iff.2 fun h => hdoc ⟨j, hj, hjk, h⟩
    cases hon : Block.onHeader 0 ((lines.drop m).map Token.ofLine) (k - m) with
    | true =>
      refine .inl (.header (hcode m (Nat.le_refl m) hmk) hmk ?_)
      rw [onHeader_scanned (by omega) hmk hcode, hon]
    | false =>
      -- only the line with the colon can hold code behind it
      rcases Nat.lt_or_eq_of_le hk with hlt | heq
      · obtain ⟨n, hn, hsum⟩ := Option.map_eq_some_iff.1 hend
        rw [Block.onHeader_of_lt hn (by omega)] at hon
        cases hon
      · exact .inr (.inline heq hon)

theorem body_cases (hb : Block.at? lines m = some b) {fields : List Text}
    (htrivial : Lifecycle.isTrivial lines b op fields = true) (hfirst : b.first ≤ k)
    (hk : k < b.stop) : Harmless lines op m k ∨ Unexamined lines m b k := by
  obtain ⟨hheader, -, -, -, hstop⟩ := Block.at?_spec hb
  have hline : lines[k]? = some lines[k] := List.getElem?_eq_getElem (by omega)
  by_cases hcount : Delimiter.count ((lines[k]?).getD []) = 0
  · cases hin : insideAt lines k with
    | true =>
      refine .inl (.prose ?_)
      rw [Balance.tokensAt_of_inside hin hcount]
      nofun
    | false =>
      rcases Nat.mod_two_eq_zero_or_one (delimitersBefore (lines.drop b.first) (k - b.first))
        with heven | hodd
      · cases hblank : Line.isBlankOrComment ((lines[k]?).getD []) with
        | true => exact .inl (.blank hin hblank)
        | false =>
          -- the line is one that the test for a trivial method has looked at
          rw [hline, Option.getD_some] at hcount hblank
          have hcode : (k, lines[k]) ∈ b.codeLines lines :=
            Block.mem_codeLines_iff.2 ⟨hfirst, hk, hline, heven, hcount, hblank⟩
          unfold Lifecycle.isTrivial at htrivial
          simp only [hheader] at htrivial
          split at htrivial
          · rename_i assigned hassigned
            refine .inl (.fieldCopy hin ?_)
            rw [hline, Option.getD_some]
            exact isSome_assignedField? hassigned _ (List.mem_map.2 ⟨_, hcode, rfl⟩)
          · cases htrivial
      · exact .inr (.parity hfirst hk hodd hin)
  · exact .inr (.delimiter hfirst hk (Nat.pos_of_ne_zero hcount))

/-- **A deleted line is harmless or unexamined.** -/
theorem harmless_or_unexamined (hb : Block.at? lines m = some b) {fields : List Text}
    (htrivial : Lifecycle.isTrivial lines b op fields = true)
    (hfirst : firstLine lines m ≤ k) (hstop : k < b.stop) :
    Harmless lines op m k ∨ Unexamined lines m b k := by
  obtain ⟨-, hend, hbody, -⟩ := Block.at?_spec hb
  have hm := Block.headerEnd?_spec hend
  rcases Nat.lt_or_ge k m with hk | hk
  · exact decorator_cases (by omega) hfirst hk
  · rcases Nat.lt_or_ge b.headerEnd k with hlast | hlast
    · exact body_cases hb htrivial (by omega) hstop
    · exact header_cases hb hk hlast

theorem Unexamined.lt_stop (hb : Block.at? lines m = some b) (h : Unexamined lines m b k) :
    firstLine lines m ≤ k ∧ k < b.stop := by
  obtain ⟨-, hend, hbody, hle, -⟩ := Block.at?_spec hb
  have hm := (Block.headerEnd?_spec hend).1
  have hfirst := firstLine_le lines m
  cases h <;> omega

end

/-! ## The range of the edit -/

section

variable (path : Text) {t : Text} (checkDocs : Bool)

theorem toNat_offsetOf (hsize : t.length < UInt32.size) {i : Nat} (hi : i ≤ t.lines.length) :
    ((Source.ofText path t checkDocs).offsetOf i).toNat = Line.offsetAt (Line.split t) i := by
  have hle : i ≤ (Line.split t).length := by rwa [← Text.length_lines]
  have hbound := Line.offsetAt_le_length hle
  rw [Source.offsetOf_ofText hi]
  exact Nat.mod_eq_of_lt (Nat.lt_of_le_of_lt hbound hsize)

/-- The lines of a method and its decorators are lines of the text, and there is one of them. -/
theorem firstLine_lt_stop {lines : List Text} {m : Nat} {b : Block}
    (hb : Block.at? lines m = some b) : firstLine lines m < b.stop ∧ b.stop ≤ lines.length := by
  obtain ⟨-, hend, hfirst, hle, hstop⟩ := Block.at?_spec hb
  have hm := (Block.headerEnd?_spec hend).1
  have hup := firstLine_le lines m
  omega

/-- The removal of a method reaches from the first line of its decorators to the end of its
body. -/
theorem removal_range (hsize : t.length < UInt32.size) {m : Nat} {b : Block} {name : Text}
    (hb : Block.at? t.lines m = some b) :
    let e := removal (Source.ofText path t checkDocs) m name
    e.offset.toNat = Line.offsetAt (Line.split t) (firstLine t.lines m) ∧
      e.offset.toNat + e.length.toNat = Line.offsetAt (Line.split t) b.stop := by
  obtain ⟨hlt, hstop⟩ := firstLine_lt_stop hb
  have hstart := toNat_offsetOf path checkDocs hsize
    (show firstLine t.lines m ≤ t.lines.length by omega)
  have hafter := toNat_offsetOf path checkDocs hsize hstop
  have hrange := Line.offsetAt_mono (Line.split t) (Nat.le_of_lt hlt)
  simp only [removal, Source.lines_ofText, hb]
  rw [UInt32.toNat_sub_of_le _ _ (by rw [UInt32.le_iff_toNat_le]; omega), hstart, hafter,
    Nat.add_sub_cancel' hrange]
  exact ⟨rfl, rfl⟩

/-- The removal of a method takes away its decorators, its header and its body, line by line. -/
theorem removal_touches_iff (hsize : t.length < UInt32.size) {m k : Nat} {b : Block} {name : Text}
    (hb : Block.at? t.lines m = some b) :
    (removal (Source.ofText path t checkDocs) m name).Touches t k ↔
      firstLine t.lines m ≤ k ∧ k < b.stop := by
  obtain ⟨hlt, hstop⟩ := firstLine_lt_stop hb
  have hlen := Text.length_lines t
  have hmono : ∀ {i j}, i ≤ j → Line.offsetAt (Line.split t) i ≤ Line.offsetAt (Line.split t) j :=
    Line.offsetAt_mono (Line.split t)
  obtain ⟨hstart, hend⟩ := @removal_range path t checkDocs hsize m b name hb
  rw [Edit.Touches, hend, hstart]
  constructor
  · rintro ⟨hbefore, hbehind⟩
    constructor
    · rcases Nat.lt_or_ge k (firstLine t.lines m) with hk | hk
      · have := hmono (show k + 1 ≤ firstLine t.lines m from hk)
        omega
      · exact hk
    · rcases Nat.lt_or_ge k b.stop with hk | hk
      · exact hk
      · have := hmono hk
        omega
  · rintro ⟨hk, hkstop⟩
    have hpos := Line.offsetAt_lt_succ (t := t) (show k < (Line.split t).length by omega)
    have hlast := hmono (show k + 1 ≤ b.stop from hkstop)
    have hhead := hmono hk
    omega

/-- What is deleted for a struct is a trivial lifecycle method of it. -/
theorem exists_removal_of_deletes {s : Source} {i : Nat} {struct : Struct} {body : Block} {e : Edit}
    (hd : Rule.Structs.Declared s i struct body)
    (h : Deletes s struct (Lifecycle.ofBlock s.lines body) e) :
    ∃ op m b line fields, s.lines[m]? = some line ∧ Lifecycle.declares op line = true ∧
      Block.at? s.lines m = some b ∧ Lifecycle.isTrivial s.lines b op fields = true ∧
      e = removal s m op.method := by
  obtain rfl := hd.header_eq
  obtain ⟨row, -, -, -, -, hbody, -⟩ := hd
  obtain ⟨op, offset, hm, rfl⟩ := h
  rw [Lifecycle.methodFor_ofBlock] at hm
  obtain ⟨line, hcode, hdecl, htrivial⟩ := Rule.Structs.of_method? hbody hm
  obtain ⟨b, hb, htrivial⟩ := (Option.any_eq_true _ _).1 htrivial.symm
  exact ⟨op, struct.header + offset, b, line, _, (Block.mem_codeLines_iff.1 hcode).2.2.1, hdecl,
    hb, htrivial, rfl⟩

/-- An edit of the struct rules that deletes anything removes a trivial lifecycle method. -/
theorem exists_removal {s : Source} {f : Finding} {e : Edit} (hf : f ∈ Rule.Structs.findings s)
    (he : e ∈ f.edits) (hdel : e.length ≠ 0) :
    ∃ op m b line fields, s.lines[m]? = some line ∧ Lifecycle.declares op line = true ∧
      Block.at? s.lines m = some b ∧ Lifecycle.isTrivial s.lines b op fields = true ∧
      e = removal s m op.method := by
  rcases Rule.Structs.findings_cases hf with ⟨-, hnone⟩ | ⟨i, struct, body, hd, hf⟩
  · rw [hnone] at he
    cases he
  · have hdeletes := ((findings_cases hf).2.2 e he).resolve_left fun h => hdel h.length_eq
    exact exists_removal_of_deletes hd hdeletes

/-- **Removing a trivial method deletes nothing but the method** exactly when the lines of it that
are deleted unseen are harmless; all the others are. -/
theorem removal_harmless_iff {f : Finding} {e : Edit} (hsize : t.length < UInt32.size)
    (hf : f ∈ Rule.Structs.findings (Source.ofText path t checkDocs)) (he : e ∈ f.edits)
    (hdel : e.length ≠ 0) :
    ∃ op m b line, t.lines[m]? = some line ∧ Lifecycle.declares op line = true ∧
      Block.at? t.lines m = some b ∧
      e = removal (Source.ofText path t checkDocs) m op.method ∧
      ((∀ k, e.Touches t k → Harmless t.lines op m k) ↔
        ∀ k, Unexamined t.lines m b k → Harmless t.lines op m k) := by
  obtain ⟨op, m, b, line, fields, hline, hdecl, hb, htrivial, rfl⟩ := exists_removal hf he hdel
  rw [Source.lines_ofText] at hline hb htrivial
  refine ⟨op, m, b, line, hline, hdecl, hb, rfl, ?_⟩
  constructor
  · intro h k hun
    exact h k ((removal_touches_iff path checkDocs hsize hb).2 (hun.lt_stop hb))
  · intro h k htouch
    obtain ⟨hfirst, hstop⟩ := (removal_touches_iff path checkDocs hsize hb).1 htouch
    exact (harmless_or_unexamined hb htrivial hfirst hstop).elim id (h k)

end

/-- A method with a docstring: its line is deleted unseen, and harmless. -/
theorem removal_harmless_documented :
    let t : Text := "struct S(Copyable):\n  fn __copyinit__(out self, other: Self):\n" ++
      "    \"\"\"Copies.\"\"\"\n    self.x = other.x\n"
    let s := Source.ofText "a.mojo" t false
    t.length < UInt32.size ∧
      ∃ f ∈ Rule.Structs.findings s, ∃ e ∈ f.edits, e.length ≠ 0 ∧ e = removal s 1 "__copyinit__" ∧
        ∀ k, e.Touches t k → Harmless t.lines .copy 1 k := by
  repeat rw [Text.ofString_ofList]
  intro t s
  have hsize : t.length < UInt32.size := by decide +kernel
  have hedit : ∃ f ∈ Rule.Structs.findings s, ∃ e ∈ f.edits, e.length ≠ 0 := by decide +kernel
  have hblock : Block.at? t.lines 1 = some ⟨1, 1, 2, 4, 2⟩ := by decide +kernel
  -- the only method of the struct
  have hmethod : ∀ m < t.lines.length, ∀ op ∈ [Lifecycle.Operation.copy, .move],
      Lifecycle.declares op ((t.lines[m]?).getD []) = true → m = 1 ∧ op = .copy := by
    decide +kernel
  obtain ⟨f, hf, e, he, hdel⟩ := hedit
  obtain ⟨op, m, b, line, hline, hdecl, hb, rfl, hiff⟩ :=
    removal_harmless_iff "a.mojo" false hsize hf he hdel
  obtain ⟨rfl, rfl⟩ : m = 1 ∧ op = .copy := by
    refine hmethod m (List.getElem?_eq_some_iff.1 hline).1 op (by cases op <;> decide) ?_
    rw [hline]
    exact hdecl
  rw [hblock] at hb
  cases hb
  refine ⟨hsize, f, hf, _, he, hdel, rfl, hiff.2 ?_⟩
  intro k h
  cases h with
  | decorator hfirst above inner =>
    have : firstLine t.lines 1 = 1 := by decide +kernel
    omega
  | header below upto docstring =>
    obtain ⟨j, hj, hjk, hin⟩ := docstring
    obtain rfl : j = 1 := Nat.le_antisymm (Nat.le_trans hjk upto) hj
    exact absurd hin (by decide +kernel)
  | inline last code =>
    subst last
    exact absurd code (by decide +kernel)
  | delimiter hfirst upto holds =>
    obtain rfl | rfl : k = 2 ∨ k = 3 := by simp only at hfirst upto; omega
    · exact .prose (by decide +kernel)
    · exact absurd holds (by decide +kernel)
  | parity hfirst upto odd code =>
    obtain rfl | rfl : k = 2 ∨ k = 3 := by simp only at hfirst upto; omega
    · exact absurd odd (by decide +kernel)
    · exact absurd odd (by decide +kernel)

/-- A call beside a literal is deleted unseen. -/
theorem removal_deletes_call :
    let t : Text := "struct S(Copyable):\n  fn __copyinit__(out self, existing: Self):\n" ++
      "    self.x = existing.x\n    log(\"\"\"copied\"\"\")\n"
    let s := Source.ofText "a.mojo" t false
    Balance.check t = .ok () ∧
      (∃ f ∈ Rule.Structs.findings s, removal s 1 "__copyinit__" ∈ f.edits) ∧
      (removal s 1 "__copyinit__").Touches t 3 ∧ ¬ Harmless t.lines .copy 1 3 := by
  repeat rw [Text.ofString_ofList]
  intro t s
  refine ⟨by decide +kernel, by decide +kernel, ⟨by decide +kernel, by decide +kernel⟩, ?_⟩
  intro h
  cases h with
  | decorator j _ _ above => exact absurd above (by decide)
  | header _ _ on => exact absurd on (by decide +kernel)
  | blank _ blank => exact absurd blank (by decide +kernel)
  | prose all => exact absurd all (by decide +kernel)
  | fieldCopy _ copies => exact absurd copies (by decide +kernel)

end Traits

end MojoLint
