import Mathlib.Data.List.DropRight
import Mathlib.Order.Bounds.Basic
import MojoLint.Proofs.Block.Body

/-!
# The extent of a body

The end of a body is found in two walks: forwards to the line that ends it (`reach`), and from there
back over the lines that trail it (`withoutTrailing`). The first walk carries one bit, whether a
literal is open; it is the parity of the lines met so far with an odd number of delimiters, so the
line where the walk stops is the least one with a property of the lines alone (`StopsAt`). The line
where the second walk stops is the only one that leaves nothing but trailing lines behind it and has
none right before it (`EndsAt`). Together they say which lines a block takes up (`body_extent`).
-/

namespace MojoLint.Block

/-! ## The walk forwards -/

/-- Whether a line holds an odd number of delimiters: a literal that is open on one side of it is
not open on the other. -/
def turns (line : Text) : Bool := Delimiter.count line % 2 == 1

/-- A walk along the lines of a body has to stop behind `n` of them: they end there, or no literal
is open and the next line ends the body. -/
def Stops (indent : UInt32) (inLiteral : Bool) (ls : List Text) (n : Nat) : Prop :=
  n = ls.length ∨ (inLiteral != ((ls.take n).countP turns % 2 == 1)) = false ∧
    ∃ line, ls[n]? = some line ∧ outdents indent line = true

theorem stops_zero_iff {indent : UInt32} {inLiteral : Bool} {line : Text} {rest : List Text} :
    Stops indent inLiteral (line :: rest) 0 ↔ (!inLiteral && outdents indent line) = true := by
  simp [Stops]

theorem stops_succ_iff {indent : UInt32} {inLiteral : Bool} {line : Text} {rest : List Text}
    {n : Nat} :
    Stops indent inLiteral (line :: rest) (n + 1) ↔
      Stops indent (inLiteral != turns line) rest n := by
  have hparity : ((line :: rest).take (n + 1)).countP turns % 2 =
      ((rest.take n).countP turns + (turns line).toNat) % 2 := by
    rw [List.take_succ_cons, List.countP_cons]
    cases turns line <;> rfl
  unfold Stops
  rw [List.length_cons, Nat.add_right_cancel_iff, List.getElem?_cons_succ, hparity, Nat.add_comm,
    Delimiter.odd_add, Bool.bne_assoc]
  cases turns line <;> rfl

/-- **The walk stops as soon as it has to.** -/
theorem isLeast_reach (indent : UInt32) (inLiteral : Bool) (ls : List Text) :
    IsLeast {n | Stops indent inLiteral ls n} (reach indent inLiteral ls) := by
  induction ls generalizing inLiteral with
  | nil => exact ⟨.inl rfl, fun n _ => Nat.zero_le n⟩
  | cons line rest ih =>
    unfold reach
    split
    · rename_i hends
      exact ⟨stops_zero_iff.2 hends, fun n _ => Nat.zero_le n⟩
    · rename_i hgoes
      obtain ⟨hstops, hleast⟩ := ih (inLiteral != turns line)
      refine ⟨stops_succ_iff.2 hstops, fun n hn => ?_⟩
      cases n with
      | zero => exact absurd (stops_zero_iff.1 hn) hgoes
      | succ n => exact Nat.succ_le_succ (hleast (stops_succ_iff.1 hn))

/-- A body from line `first` on has to stop at line `j`: the lines end there, or an even number of
lines before it hold an odd number of delimiters, and line `j` is code that is not indented deeper
than the header. -/
def StopsAt (lines : List Text) (first : Nat) (indent : UInt32) (j : Nat) : Prop :=
  j = lines.length ∨
    ((lines.drop first).take (j - first)).countP turns % 2 = 0 ∧
      ∃ line, lines[j]? = some line ∧ Line.isBlankOrComment line = false ∧
        Line.indent line ≤ indent

theorem stopsAt_add_iff {lines : List Text} {first n : Nat} {indent : UInt32}
    (hfirst : first ≤ lines.length) :
    StopsAt lines first indent (first + n) ↔ Stops indent false (lines.drop first) n := by
  have hlength : first + n = lines.length ↔ n = (lines.drop first).length := by
    rw [List.length_drop]
    omega
  have hparity : ∀ m : Nat, m % 2 = 0 ↔ (false != (m % 2 == 1)) = false := by
    intro m
    rw [Bool.false_bne, beq_eq_false_iff_ne]
    omega
  have houtdents : ∀ line, outdents indent line = true ↔
      Line.isBlankOrComment line = false ∧ Line.indent line ≤ indent := by
    intro line
    rw [outdents, Bool.and_eq_true, Bool.not_eq_true', decide_eq_true_iff]
  unfold StopsAt Stops
  rw [hlength, Nat.add_sub_cancel_left, ← List.getElem?_drop, hparity]
  simp only [houtdents]

theorem isLeast_stopsAt (lines : List Text) {first : Nat} (indent : UInt32)
    (hfirst : first ≤ lines.length) :
    IsLeast {j | first ≤ j ∧ StopsAt lines first indent j}
      (first + reach indent false (lines.drop first)) := by
  obtain ⟨hstops, hleast⟩ := isLeast_reach indent false (lines.drop first)
  refine ⟨⟨Nat.le_add_right _ _, (stopsAt_add_iff hfirst).2 hstops⟩, ?_⟩
  rintro j ⟨hj, hstop⟩
  obtain ⟨n, rfl⟩ := Nat.exists_eq_add_of_le hj
  exact Nat.add_le_add_left (hleast ((stopsAt_add_iff hfirst).1 hstop)) first

/-! ## The walk back -/

/-- A line that does not belong to a body at its end: a blank one, or a comment that is not indented
deeper than the header. -/
def Trails (indent : UInt32) (line : Text) : Prop :=
  Line.isBlank line = true ∨
    (Text.trim line).head? = some Byte.hash ∧ Line.indent line ≤ indent

theorem trails_iff {indent : UInt32} {line : Text} :
    trails indent line = true ↔ Trails indent line := by
  simp only [trails, Line.isBlankOrComment, Trails, Bool.and_eq_true, Bool.or_eq_true, beq_iff_eq,
    decide_eq_true_iff]
  tauto

/-- The end of a body that starts on line `first` and has to stop at line `stop`. -/
structure EndsAt (lines : List Text) (first stop : Nat) (indent : UInt32) (e : Nat) : Prop where
  first_le : first ≤ e
  le_stop : e ≤ stop
  trailing : ∀ k, e ≤ k → k < stop → ∃ line, lines[k]? = some line ∧ Trails indent line
  last : first < e → ∃ line, lines[e - 1]? = some line ∧ ¬ Trails indent line

theorem EndsAt.le {lines : List Text} {first stop : Nat} {indent : UInt32} {e e' : Nat}
    (h : EndsAt lines first stop indent e) (h' : EndsAt lines first stop indent e') : e' ≤ e := by
  by_contra hlt
  have := h.first_le
  have := h'.le_stop
  obtain ⟨line, hline, hkept⟩ := h'.last (by omega)
  obtain ⟨_, hline', htrails⟩ := h.trailing (e' - 1) (by omega) (by omega)
  rw [hline] at hline'
  cases hline'
  exact hkept htrails

/-- There is one end at most. -/
theorem EndsAt.unique {lines : List Text} {first stop : Nat} {indent : UInt32} {e e' : Nat}
    (h : EndsAt lines first stop indent e) (h' : EndsAt lines first stop indent e') : e' = e :=
  Nat.le_antisymm (h.le h') (h'.le h)

theorem exists_withoutTrailing_append (indent : UInt32) (body : List Text) :
    ∃ trailing, body = withoutTrailing indent body ++ trailing ∧
      (∀ line ∈ trailing, Trails indent line) ∧
      ∀ line ∈ (withoutTrailing indent body).getLast?, ¬ Trails indent line := by
  have hdrop : withoutTrailing indent body = body.rdropWhile (trails indent) := rfl
  refine ⟨body.rtakeWhile (trails indent), ?_, fun line hline => ?_, fun line hline => ?_⟩
  · rw [hdrop, List.rdropWhile_append_rtakeWhile]
  · exact trails_iff.1 (List.mem_rtakeWhile_imp hline)
  · obtain ⟨hne, rfl⟩ := List.mem_getLast?_eq_getLast hline
    exact fun htrails => List.rdropWhile_last_not _ _ hne (trails_iff.2 htrails)

/-- **The walk back ends where a body ends.** -/
theorem endsAt_withoutTrailing {lines : List Text} {first n : Nat} (indent : UInt32)
    (h : first + n ≤ lines.length) :
    EndsAt lines first (first + n) indent
      (first + (withoutTrailing indent ((lines.drop first).take n)).length) := by
  obtain ⟨trailing, hbody, htrailing, hlast⟩ :=
    exists_withoutTrailing_append indent ((lines.drop first).take n)
  generalize withoutTrailing indent ((lines.drop first).take n) = kept at hbody hlast ⊢
  have hlength := congrArg List.length hbody
  rw [List.length_take_of_le (by rw [List.length_drop]; omega), List.length_append] at hlength
  have hget : ∀ m < n, lines[first + m]? = (kept ++ trailing)[m]? := by
    intro m hm
    rw [← hbody, List.getElem?_take, if_pos hm, List.getElem?_drop]
  refine ⟨Nat.le_add_right _ _, by omega, fun k hk hstop => ?_, fun hne => ?_⟩
  · obtain ⟨m, rfl⟩ := Nat.exists_eq_add_of_le (Nat.le_of_add_right_le hk)
    rw [hget m (by omega), List.getElem?_append_right (by omega)]
    have hm : m - kept.length < trailing.length := by omega
    exact ⟨_, List.getElem?_eq_getElem hm, htrailing _ (List.getElem_mem hm)⟩
  · have hkept : kept ≠ [] := by
      rintro rfl
      exact Nat.lt_irrefl first hne
    have hpos := List.length_pos_iff.2 hkept
    rw [Nat.add_sub_assoc hpos, hget _ (by omega), List.getElem?_append_left (by omega),
      ← List.getLast?_eq_getElem?]
    exact ⟨_, List.getLast?_eq_some_getLast hkept,
      hlast _ (List.getLast?_eq_some_getLast hkept)⟩

/-! ## The lines of a block -/

/-- The block `b` is the header that starts on line `i` with the lines indented below it. -/
structure Spans (lines : List Text) (i : Nat) (b : Block) : Prop where
  header : b.header = i
  headerEnd : headerEnd? lines i = some b.headerEnd
  header_le : i ≤ b.headerEnd
  headerEnd_lt : b.headerEnd < lines.length
  first : b.first = b.headerEnd + 1
  indent : (lines[i]?).map Line.indent = some b.indent
  stop : ∃ stop, IsLeast {j | b.first ≤ j ∧ StopsAt lines b.first b.indent j} stop ∧
    ∀ e, EndsAt lines b.first stop b.indent e ↔ e = b.stop

theorem Spans.unique {lines : List Text} {i : Nat} {b b' : Block} (h : Spans lines i b)
    (h' : Spans lines i b') : b = b' := by
  have hheader : b.header = b'.header := h.header.trans h'.header.symm
  have hend : b.headerEnd = b'.headerEnd := Option.some.inj (h.headerEnd.symm.trans h'.headerEnd)
  have hfirst : b.first = b'.first := by rw [h.first, h'.first, hend]
  have hindent : b.indent = b'.indent := Option.some.inj (h.indent.symm.trans h'.indent)
  obtain ⟨m, hm, hstop⟩ := h.stop
  obtain ⟨m', hm', hstop'⟩ := h'.stop
  rw [hfirst, hindent] at hm hstop
  obtain rfl := hm.unique hm'
  have hends : b.stop = b'.stop := (hstop' b.stop).1 ((hstop b.stop).2 rfl)
  cases b
  cases b'
  cases hheader
  cases hend
  cases hfirst
  cases hindent
  cases hends
  rfl

theorem spans_of_at? {lines : List Text} {i : Nat} {b : Block} (h : at? lines i = some b) :
    Spans lines i b := by
  obtain ⟨e, he, rfl⟩ := Option.map_eq_some_iff.1 h
  obtain ⟨hle, hlt⟩ := headerEnd?_spec he
  have hline : lines[i]? = some lines[i] := List.getElem?_eq_getElem (Nat.lt_of_le_of_lt hle hlt)
  refine ⟨rfl, he, hle, hlt, rfl, by rw [hline]; rfl, _, isLeast_stopsAt lines _ hlt,
    fun e' => ?_⟩
  have hwithin := (isLeast_stopsAt lines (Line.indent ((lines[i]?).getD [])) hlt).2
    ⟨hlt, .inl rfl⟩
  have hends := endsAt_withoutTrailing (Line.indent ((lines[i]?).getD [])) hwithin
  exact ⟨fun h' => hends.unique h', fun h' => h' ▸ hends⟩

/-- **A block is exactly its header and the lines indented below it.** Which lines those are does
not depend on the walks that find them, and there is no block only where there is no header. -/
theorem body_extent (lines : List Text) (i : Nat) :
    (∀ b, at? lines i = some b ↔ Spans lines i b) ∧
      (at? lines i = none ↔ headerEnd? lines i = none) := by
  refine ⟨fun b => ⟨spans_of_at?, fun h => ?_⟩, Option.map_eq_none_iff⟩
  obtain ⟨b', hb'⟩ : ∃ b', at? lines i = some b' := ⟨_, by rw [at?, h.headerEnd]; rfl⟩
  rw [hb', h.unique (spans_of_at? hb')]

end MojoLint.Block
