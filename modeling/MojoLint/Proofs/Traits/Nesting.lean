import MojoLint.Proofs.Block.Extent
import MojoLint.Proofs.Traits.Removal

/-!
# Nested bodies

A header inside a body opens a body of its own, and the two are found by walks that know nothing of
each other: they start on different lines with no literal open, stop at different indentations, and
step back over different trailing lines. Where no literal is open at either end of the inner header
the two walks agree on the literals from there on. The line that stops the outer walk then stops the
inner one as well, if nothing did before, and a line that trails the outer body trails the inner one
(`Encloses.stop_le`). So a body lies within the body that its header stands in (`body_nested`), and
so do the lines that the removal of a method deletes (`removal_within_struct`).
-/

namespace MojoLint

namespace Block

open Exclusion (delimitersBefore)

/-- How many of the lines from `first` up to `stop` hold an odd number of delimiters. -/
def turnsIn (lines : List Text) (first stop : Nat) : Nat :=
  ((lines.drop first).take (stop - first)).countP turns

theorem turnsIn_add (lines : List Text) {i j k : Nat} (hij : i ≤ j) (hjk : j ≤ k) :
    turnsIn lines i k = turnsIn lines i j + turnsIn lines j k := by
  have hdrop : lines.drop j = (lines.drop i).drop (j - i) := by
    rw [List.drop_drop, Nat.add_sub_cancel' hij]
  have hcut : k - i = (j - i) + (k - j) := by omega
  unfold turnsIn
  rw [hdrop, hcut, List.take_add, List.countP_append]

/-- As many lines hold an odd number of delimiters as there are delimiters, up to an even number. -/
theorem countP_turns_odd (ls : List Text) :
    (ls.countP turns % 2 == 1) = ((ls.map Delimiter.count).sum % 2 == 1) := by
  induction ls with
  | nil => rfl
  | cons line ls ih =>
    rw [List.countP_cons, Nat.add_comm, Delimiter.odd_add, ih, List.map_cons, List.sum_cons,
      Delimiter.odd_add]
    congr 1
    unfold turns
    cases Delimiter.count line % 2 == 1 <;> rfl

theorem turnsIn_even_of_delimitersBefore {lines : List Text} {first j : Nat}
    (h : delimitersBefore (lines.drop first) (j - first) % 2 = 0) :
    turnsIn lines first j % 2 = 0 := by
  have hodd := countP_turns_odd ((lines.drop first).take (j - first))
  rw [← Exclusion.delimitersBefore_eq_sum, h] at hodd
  rw [turnsIn]
  simpa using hodd

/-- The body of `outer` holds the code line `line`, number `j`, and the header that starts there and
ends on line `last`. No literal is open before the header or behind it. -/
structure Encloses (lines : List Text) (outer : Block) (j last : Nat) (line : Text) : Prop where
  first_le : outer.first ≤ j
  lt_stop : j < outer.stop
  getLine : lines[j]? = some line
  code : Line.isBlankOrComment line = false
  before : turnsIn lines outer.first j % 2 = 0
  headerEnd : headerEnd? lines j = some last
  last_lt : last < outer.stop
  behind : turnsIn lines j (last + 1) % 2 = 0

section

variable {lines : List Text} {i j last : Nat} {outer inner : Block} {line : Text}

/-- What does not end the outer body is indented deeper than its header. -/
theorem Encloses.indent_lt (h : Encloses lines outer j last line) (hspans : Spans lines i outer) :
    outer.indent < Line.indent line := by
  obtain ⟨stop, hleast, hends⟩ := hspans.stop
  have hstop := ((hends outer.stop).2 rfl).le_stop
  rw [← UInt32.not_le]
  intro hle
  have hstopsAt : StopsAt lines outer.first outer.indent j :=
    .inr ⟨h.before, line, h.getLine, h.code, hle⟩
  have := hleast.2 ⟨h.first_le, hstopsAt⟩
  have := h.lt_stop
  omega

/-- Behind the inner header both walks follow the same literals, so what stops the outer one stops
the inner one. -/
theorem Encloses.stopsAt (h : Encloses lines outer j last line)
    (hlt : outer.indent < Line.indent line) {k : Nat} (hk : last < k)
    (hstops : StopsAt lines outer.first outer.indent k) :
    StopsAt lines (last + 1) (Line.indent line) k := by
  rcases hstops with hend | ⟨hparity, l, hl, hcode, hindent⟩
  · exact .inl hend
  · refine .inr ⟨?_, l, hl, hcode, UInt32.le_trans hindent (UInt32.le_of_lt hlt)⟩
    have hle := (headerEnd?_spec h.headerEnd).1
    have hwhole := turnsIn_add lines h.first_le (show j ≤ k by omega)
    have hinner := turnsIn_add lines (show j ≤ last + 1 by omega) hk
    have hbefore := h.before
    have hbehind := h.behind
    rw [← turnsIn] at hparity ⊢
    omega

theorem Trails.mono {a b : UInt32} (hab : a ≤ b) {l : Text} (h : Trails a l) : Trails b l :=
  h.imp_right fun hcomment => ⟨hcomment.1, UInt32.le_trans hcomment.2 hab⟩

/-- **The inner body ends no later than the outer one.** -/
theorem Encloses.stop_le (h : Encloses lines outer j last line) (houter : Spans lines i outer)
    (hinner : Spans lines j inner) : inner.stop ≤ outer.stop := by
  have hlt := h.indent_lt houter
  obtain ⟨stop, hleast, hends⟩ := houter.stop
  obtain ⟨stop', hleast', hends'⟩ := hinner.stop
  have hend := (hends outer.stop).2 rfl
  have hend' := (hends' inner.stop).2 rfl
  have hindent : inner.indent = Line.indent line := by
    have := hinner.indent
    rw [h.getLine] at this
    exact (Option.some.inj this).symm
  have hfirst : inner.first = last + 1 := by
    rw [hinner.first, Option.some.inj (hinner.headerEnd.symm.trans h.headerEnd)]
  have hlast := h.last_lt
  -- the outer walk goes at least as far as the inner one
  have hwalk : stop' ≤ stop := by
    refine hleast'.2 ⟨?_, ?_⟩
    · have := hend.le_stop
      omega
    · rw [hfirst, hindent]
      refine h.stopsAt hlt ?_ hleast.1.2
      have := hend.le_stop
      omega
  -- and what trails the outer body trails the inner one
  by_contra hle
  obtain ⟨l, hl, hkept⟩ := hend'.last (by omega)
  have hstop' := hend'.le_stop
  obtain ⟨l', hl', htrails⟩ := hend.trailing (inner.stop - 1) (by omega) (by omega)
  rw [hl] at hl'
  cases hl'
  exact hkept (hindent ▸ htrails.mono (UInt32.le_of_lt hlt))

/-- A header in a body has a body within that body, and is indented deeper than the header of that
body. -/
theorem Encloses.exists_inner (h : Encloses lines outer j last line)
    (houter : at? lines i = some outer) :
    ∃ inner, at? lines j = some inner ∧ inner.headerEnd = last ∧ outer.first ≤ inner.first ∧
      inner.first ≤ inner.stop ∧ inner.stop ≤ outer.stop ∧
      ∃ header, lines[i]? = some header ∧ Line.indent header < Line.indent line := by
  have hspans := spans_of_at? houter
  obtain ⟨inner, hinner⟩ : ∃ inner, at? lines j = some inner :=
    ⟨_, by rw [at?, h.headerEnd]; rfl⟩
  obtain ⟨-, hend, hfirst, hle, -⟩ := at?_spec hinner
  have hlast : inner.headerEnd = last := Option.some.inj (hend.symm.trans h.headerEnd)
  have hheader := (headerEnd?_spec h.headerEnd).1
  have hfirst_le := h.first_le
  obtain ⟨header, hget, hindent⟩ := Option.map_eq_some_iff.1 hspans.indent
  refine ⟨inner, hinner, hlast, by omega, hle, h.stop_le hspans (spans_of_at? hinner), header, hget,
    ?_⟩
  rw [hindent]
  exact h.indent_lt hspans

end

end Block

namespace Traits

open Block (Encloses turnsIn)

/-- The replaced range of a removal ends where the body of the method ends. -/
theorem removal_stop {s : Source} {m : Nat} {b : Block} (hb : Block.at? s.lines m = some b)
    (name : Text) :
    (removal s m name).offset + (removal s m name).length = s.offsetOf b.stop := by
  simp only [removal, hb]
  rw [UInt32.add_comm, UInt32.sub_add_cancel]

/-- **A body lies within the body that its header stands in.** Its header is indented deeper than
the other one, and the removal of a method with this header deletes nothing behind its body. -/
theorem body_nested {lines : List Text} {i j last : Nat} {outer : Block} {line : Text}
    (houter : Block.at? lines i = some outer) (h : Encloses lines outer j last line) :
    ∃ inner, Block.at? lines j = some inner ∧ outer.first ≤ inner.first ∧
      inner.first ≤ inner.stop ∧ inner.stop ≤ outer.stop ∧
      (∃ header, lines[i]? = some header ∧ Line.indent header < Line.indent line) ∧
      ∀ (s : Source) (name : Text), s.lines = lines →
        (removal s j name).offset + (removal s j name).length = s.offsetOf inner.stop := by
  obtain ⟨inner, hinner, -, hfirst, hle, hstop, hindent⟩ := h.exists_inner houter
  refine ⟨inner, hinner, hfirst, hle, hstop, hindent, ?_⟩
  rintro s name rfl
  exact removal_stop hinner name

/-- A struct with a method whose header runs over two lines and whose docstring has a line without
indentation. Blank lines and an outdented comment stand between the method and the next field. -/
theorem body_nested_method :
    let lines := Text.lines ("struct S:\n    var x: Int\n\n    fn get(self,\n" ++
      "           by: Int) -> Int:\n        \"\"\"Docs.\nflush left\n        \"\"\"\n" ++
      "        return self.x\n\n# about nothing\n\n    var y: Int\n# outside\nfn g():\n    pass\n")
    Block.at? lines 0 = some ⟨0, 0, 1, 13, 0⟩ ∧
      (∃ line, Encloses lines ⟨0, 0, 1, 13, 0⟩ 3 4 line) ∧
      ∃ inner, Block.at? lines 3 = some inner ∧ inner.first = 5 ∧ inner.stop = 9 ∧
        1 ≤ inner.first ∧ inner.stop ≤ 13 := by
  repeat rw [Text.ofString_ofList]
  intro lines
  have houter : Block.at? lines 0 = some ⟨0, 0, 1, 13, 0⟩ := by decide +kernel
  have hinner : Block.at? lines 3 = some ⟨3, 4, 5, 9, 4⟩ := by decide +kernel
  have h : Encloses lines ⟨0, 0, 1, 13, 0⟩ 3 4 ((lines[3]?).getD []) :=
    { first_le := by decide
      lt_stop := by decide
      getLine := by decide +kernel
      code := by decide +kernel
      before := by decide +kernel
      headerEnd := by decide +kernel
      last_lt := by decide
      behind := by decide +kernel }
  refine ⟨houter, ⟨_, h⟩, ?_⟩
  obtain ⟨inner, hat, hfirst, -, hstop, -⟩ := body_nested houter h
  rw [hinner] at hat
  cases hat
  exact ⟨_, hinner, rfl, rfl, hfirst, hstop⟩

/-- The lifecycle methods of a struct are removed from its body: no line behind it is deleted when
the header of the method ends in the body and no literal is open behind the header. -/
theorem removal_within_struct {path t : Text} {checkDocs : Bool} (hsize : t.length < UInt32.size)
    {i last : Nat} {struct : Block} {op : Lifecycle.Operation} {m : Lifecycle.Method}
    (hstruct : Block.at? t.lines i = some struct)
    (hm : Lifecycle.method? t.lines struct op = some m)
    (hend : Block.headerEnd? t.lines (i + m.offset) = some last) (hlast : last < struct.stop)
    (hclosed : turnsIn t.lines (i + m.offset) (last + 1) % 2 = 0) {k : Nat}
    (hk : (removal (Source.ofText path t checkDocs) (i + m.offset) op.method).Touches t k) :
    k < struct.stop := by
  obtain ⟨line, hcode, -, -⟩ := Rule.Structs.of_method? hstruct hm
  obtain ⟨hfirst, hstop, hline, hparity, -, hblank⟩ := Block.mem_codeLines_iff.1 hcode
  have hencloses : Encloses t.lines struct (i + m.offset) last line :=
    ⟨hfirst, hstop, hline, hblank, Block.turnsIn_even_of_delimitersBefore hparity, hend, hlast,
      hclosed⟩
  obtain ⟨inner, hinner, -, -, -, hle, -⟩ := hencloses.exists_inner hstruct
  have := ((removal_touches_iff path checkDocs hsize hinner).1 hk).2
  omega

end Traits

end MojoLint
