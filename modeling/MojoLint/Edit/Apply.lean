import MojoLint.Edit.Basic

/-!
# Carrying out edits

Edits are carried out from the last to the first, so that the offsets of those still to come stay
right. An edit that reaches past the end of the text is where they stop.
-/

namespace MojoLint.Edit

/-- The offset behind the last byte that the edit replaces, in exact arithmetic. -/
def stop (e : Edit) : Nat := e.offset.toNat + e.length.toNat

/-- The text with the bytes of the edit replaced. -/
def splice (e : Edit) (t : Text) : Text := t.take e.offset.toNat ++ e.replacement ++ t.drop e.stop

/-- What carrying out edits leads to. -/
structure Applied where
  /-- The text with the edits carried out so far. -/
  text : Text
  /-- The edit that reaches past the end of the text, when there is one. -/
  misfit : Option Edit
deriving DecidableEq

/-- Carries out the edits on the text, the last one first. -/
def applyAll (t : Text) : List Edit → Applied
  | [] => ⟨t, none⟩
  | e :: es =>
    let later := applyAll t es
    match later.misfit with
    | some _ => later
    | none =>
      if e.stop ≤ later.text.length then ⟨e.splice later.text, none⟩ else ⟨later.text, some e⟩

/-- The message about an edit that does not fit. -/
def misfitMessage (e : Edit) : Text := "Out-of-range fix in " ++ e.file

end MojoLint.Edit
