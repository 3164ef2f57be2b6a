import MojoLint.Edit.Basic

/-!
# Selecting edits

Edits can only be carried out together when they do not touch the same bytes. The selection goes
through the edits from the start of the file and keeps each one that does not run into what was
kept before. Where two edits start at the same place the wider one comes first, so that a deletion
wins over an insertion inside it.
-/

namespace MojoLint.Edit

/-- The order of the selection: by offset, and at the same offset the longer edit first. -/
def precedes (a b : Edit) : Bool :=
  if a.offset = b.offset then b.length ≤ a.length else a.offset < b.offset

/-- The edits that a selection keeps and the number of those it skips. -/
structure Selection where
  edits : List Edit
  skipped : Nat
deriving DecidableEq

/-- Whether an edit runs into what was kept before it: it starts before `covered`, the end of the
bytes that the kept edits replace, or it inserts where the last kept edit inserts. -/
def collides (covered : UInt32) (last : Option Edit) (e : Edit) : Bool :=
  match last with
  | none => false
  | some l => e.offset < covered || (e.offset == l.offset && e.length == 0 && l.length == 0)

/-- The selection from edits in order, given the end `covered` of the bytes replaced so far and
the last edit kept. The end of an edit is a 32-bit word and wraps. -/
def selectFrom (covered : UInt32) (last : Option Edit) : List Edit → Selection
  | [] => ⟨[], 0⟩
  | e :: es =>
    if collides covered last e then
      let s := selectFrom covered last es
      ⟨s.edits, s.skipped + 1⟩
    else
      let s := selectFrom (max covered (e.offset + e.length)) (some e) es
      ⟨e :: s.edits, s.skipped⟩

/-- The edits to be carried out together, in the order of their offsets. -/
def select (edits : List Edit) : Selection := selectFrom 0 none (edits.mergeSort precedes)

theorem length_selectFrom (covered : UInt32) (last : Option Edit) (es : List Edit) :
    (selectFrom covered last es).edits.length + (selectFrom covered last es).skipped =
      es.length := by
  induction es generalizing covered last with
  | nil => rfl
  | cons e es ih =>
    unfold selectFrom
    split
    · have := ih covered last
      simp only [List.length_cons]
      omega
    · have := ih (max covered (e.offset + e.length)) (some e)
      simp only [List.length_cons]
      omega

/-- Every edit is kept or counted as skipped. -/
theorem length_select (es : List Edit) :
    (select es).edits.length + (select es).skipped = es.length := by
  rw [select, length_selectFrom, List.length_mergeSort]

end MojoLint.Edit
