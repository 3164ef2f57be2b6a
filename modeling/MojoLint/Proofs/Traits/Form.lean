import MojoLint.Proofs.Traits.Grammar

/-!
# The form of a trait list

A trait list is well formed when its entries are separated by single commas and none of them is
empty; one more comma may stand behind the last entry (`IsEntries`). A reader that goes through the
tokens from left to right finds out how a list ends (`listEnding`), so the form of a list is settled
by its tokens alone, and none holds two commas behind each other (`not_isForm_adjacent`).
-/

namespace MojoLint

namespace Struct

open Token (sign word)

theorem Balanced.append {ts us : List Token} (hts : Balanced ts) (hus : Balanced us) :
    Balanced (ts ++ us) := by
  induction hts with
  | nil => exact hus
  | plain opens closes rest ih => exact .plain opens closes ih
  | group pair a b inner rest ihinner ihrest =>
    rw [List.cons_append, List.append_assoc]
    exact .group pair a b inner ihrest

/-! ## Entries -/

/-- What a list of entries ends in. -/
inductive Ending where
  /-- There are no entries. -/
  | start
  | entry
  /-- A comma behind the last entry. -/
  | comma
deriving DecidableEq

/-- A part of an entry: a token that is no comma, or what stands in brackets. -/
inductive IsItem : List Token → Prop
  | plain {t : Token} (opens : Block.opens t = false) (closes : Block.closes t = false)
      (comma : t.isPunct "," = false) : IsItem [t]
  | group {o c : Text} {ts : List Token} (pair : (o, c) ∈ brackets) (a b : UInt32)
      (inner : Balanced ts) : IsItem (sign o a :: (ts ++ [sign c b]))

/-- The tokens are entries that are not empty, with single commas between them. A comma stands only
behind an entry. -/
inductive IsEntries : Ending → List Token → Prop
  | empty : IsEntries .start []
  | item {e : Ending} {ts us : List Token} (before : IsEntries e ts) (item : IsItem us) :
      IsEntries .entry (ts ++ us)
  | comma {ts : List Token} (c : UInt32) (before : IsEntries .entry ts) :
      IsEntries .comma (ts ++ [sign "," c])

/-- A trait list in its parentheses, when there is one. -/
inductive IsList : Option Ending → List Token → Prop
  | none : IsList none []
  | some {e : Ending} {ts : List Token} (a b : UInt32) (inner : IsEntries e ts) :
      IsList (some e) (sign "(" a :: (ts ++ [sign ")" b]))

/-- The tokens start with a header of the struct `name`, with these parameters and a well-formed
trait list or none. -/
inductive IsForm (name : Text) (params : List Token) (list : Option Ending) : List Token → Prop
  | intro {traits rest : List Token} (a b c : UInt32) (parameters : IsParameters params)
      (list_form : IsList list traits) :
      IsForm name params list
        (word "struct" a :: word name b :: (params ++ (traits ++ sign ":" c :: rest)))

theorem IsItem.of_kind {t : Token} (h : t.kind ≠ .punct) : IsItem [t] := by
  have hpunct : ∀ s, t.isPunct s = false := fun s => by
    rw [Token.isPunct, beq_eq_false_iff_ne.2 h, Bool.false_and]
  refine .plain ?_ ?_ (hpunct ",")
  · rw [Block.opens, hpunct, hpunct, hpunct]
    rfl
  · rw [Block.closes, hpunct, hpunct, hpunct]
    rfl

theorem IsItem.balanced {ts : List Token} (h : IsItem ts) : Balanced ts := by
  cases h with
  | plain opens closes comma => exact .plain opens closes .nil
  | group pair a b inner => exact .group pair a b inner .nil

theorem IsEntries.balanced {e : Ending} {ts : List Token} (h : IsEntries e ts) : Balanced ts := by
  induction h with
  | empty => exact .nil
  | item before item ih => exact ih.append item.balanced
  | comma c before ih => exact ih.append (.plain rfl rfl .nil)

/-- A last token that is neither a bracket nor a comma is a part of the last entry. -/
theorem IsEntries.of_concat {e : Ending} {ts : List Token} {u : Token}
    (h : IsEntries e (ts ++ [u])) (hu : u.kind ≠ .punct) :
    e = .entry ∧ ∃ e', IsEntries e' ts := by
  generalize hall : ts ++ [u] = all at h
  cases h with
  | empty => exact absurd hall (by simp)
  | @item e' ts' us before item =>
    cases item with
    | plain opens closes comma =>
      obtain ⟨rfl, -⟩ := List.append_inj' hall rfl
      exact ⟨rfl, e', before⟩
    | group pair a b inner =>
      rw [← List.cons_append, ← List.append_assoc] at hall
      obtain ⟨-, hlast⟩ := List.append_inj' hall rfl
      cases hlast
      exact absurd rfl hu
  | comma c before =>
    obtain ⟨-, hlast⟩ := List.append_inj' hall rfl
    cases hlast
    exact absurd rfl hu

theorem isForm_list {name : Text} {params content rest : List Token} {e : Ending}
    (a b c d colon : UInt32) (hparams : IsParameters params) (hcontent : IsEntries e content) :
    IsForm name params (some e) (word "struct" a :: word name b ::
      (params ++ sign "(" c :: (content ++ sign ")" d :: sign ":" colon :: rest))) := by
  have hform : IsForm name params (some e) (word "struct" a :: word name b ::
      (params ++ (sign "(" c :: (content ++ [sign ")" d]) ++ sign ":" colon :: rest))) :=
    .intro a b colon hparams (.some c d hcontent)
  simpa using hform

/-! ## How a list ends -/

/-- Reads entries up to the bracket behind them, inside `depth` brackets of theirs, and tells what
the entries end in. A comma has to follow an entry. -/
def listEnding (depth : Nat) (e : Ending) : List Token → Option Ending
  | [] => none
  | t :: ts =>
    if t.isOpener then listEnding (depth + 1) e ts
    else if t.isCloser then
      if depth = 0 then some e
      else listEnding (depth - 1) (if depth = 1 then .entry else e) ts
    else if depth = 0 then
      if t.isPunct "," then if e = .entry then listEnding 0 .comma ts else none
      else listEnding 0 .entry ts
    else listEnding depth e ts

/-- Inside inner brackets no comma counts. -/
theorem Balanced.listEnding_inner {ts : List Token} (h : Balanced ts) (d : Nat) (e : Ending)
    (us : List Token) : listEnding (d + 1) e (ts ++ us) = listEnding (d + 1) e us := by
  induction h generalizing d us with
  | nil => rfl
  | @plain t ts opens closes rest ih =>
    obtain ⟨hopener, hcloser, -, -⟩ := of_plain opens closes
    rw [List.cons_append, listEnding, hopener, hcloser, ih d us]
    simp
  | @group o c ts vs pair a b inner rest ihinner ihrest =>
    have hopen : listEnding (d + 1) e (sign o a :: (ts ++ sign c b :: (vs ++ us))) =
        listEnding (d + 2) e (ts ++ sign c b :: (vs ++ us)) := by
      apply of_brackets pair <;> rfl
    have hclose : listEnding (d + 2) e (sign c b :: (vs ++ us)) =
        listEnding (d + 1) e (vs ++ us) := by
      apply of_brackets pair <;> rfl
    rw [List.cons_append, List.append_assoc, List.cons_append, hopen, ihinner (d + 1), hclose,
      ihrest d]

theorem IsItem.listEnding {us : List Token} (h : IsItem us) (e : Ending) (vs : List Token) :
    Struct.listEnding 0 e (us ++ vs) = Struct.listEnding 0 .entry vs := by
  cases h with
  | plain opens closes comma =>
    obtain ⟨hopener, hcloser, -, -⟩ := Balanced.of_plain opens closes
    rw [List.singleton_append, Struct.listEnding, hopener, hcloser, comma]
    simp
  | @group o c ts pair a b inner =>
    have hopen : Struct.listEnding 0 e (sign o a :: (ts ++ sign c b :: vs)) =
        Struct.listEnding 1 e (ts ++ sign c b :: vs) := by
      apply of_brackets pair <;> rfl
    have hclose : Struct.listEnding 1 e (sign c b :: vs) = Struct.listEnding 0 .entry vs := by
      apply of_brackets pair <;> rfl
    rw [List.cons_append, List.append_assoc, List.singleton_append, hopen,
      inner.listEnding_inner 0, hclose]

/-- **The reader finds what the entries end in**, whatever follows. -/
theorem IsEntries.listEnding {e : Ending} {ts : List Token} (h : IsEntries e ts)
    (vs : List Token) : Struct.listEnding 0 .start (ts ++ vs) = Struct.listEnding 0 e vs := by
  induction h generalizing vs with
  | empty => rfl
  | item before item ih => rw [List.append_assoc, ih, item.listEnding]
  | comma c before ih =>
    rw [List.append_assoc, ih]
    rfl

/-! ## Headers that are not of the form -/

/-- **Two commas behind each other** are not of the form. -/
theorem not_isForm_adjacent {name name' : Text} {params params' content rest : List Token}
    {list : Option Ending} {a b c d : UInt32} (hparams : IsParameters params)
    (hcontent : IsEntries .comma content) :
    ¬ IsForm name' params' list
      (word "struct" a :: word name b ::
        (params ++ sign "(" c :: (content ++ sign "," d :: rest))) := by
  intro h
  generalize htokens : word "struct" a :: word name b ::
    (params ++ sign "(" c :: (content ++ sign "," d :: rest)) = tokens at h
  cases h with
  | @intro traits rest' a' b' c' parameters list_form =>
    have hbehind := congrArg Declaration.skipParameters
      (List.cons.inj (List.cons.inj htokens).2).2
    rw [skipParameters_append hparams (by decide +kernel)] at hbehind
    cases list_form with
    | none =>
      rw [List.nil_append, skipParameters_append parameters (by decide +kernel)] at hbehind
      have hsign : ("(" : Text) = ":" := congrArg Token.text (List.cons.inj hbehind).1
      exact absurd hsign (by decide +kernel)
    | @some e ts c₁ c₂ inner =>
      rw [List.cons_append, skipParameters_append parameters (by decide +kernel),
        List.append_assoc] at hbehind
      have hread := hcontent.listEnding (sign "," d :: rest)
      rw [(List.cons.inj hbehind).2, inner.listEnding] at hread
      cases hread

/-- Behind the keyword there is a name. -/
theorem not_isForm_sign {name s : Text} {params rest : List Token} {list : Option Ending}
    {k : Token} {a : UInt32} : ¬ IsForm name params list (k :: sign s a :: rest) := by
  intro h
  generalize htokens : k :: sign s a :: rest = tokens at h
  cases h with
  | intro a' b' c' parameters list_form =>
    have hkind := congrArg Token.kind (List.cons.inj (List.cons.inj htokens).2).1
    cases hkind

/-! ## Names in a list -/

theorem traitNames_some_ne_nil (d : Nat) (name : Text) (ts : List Token) :
    traitNames d (some name) ts ≠ [] := by
  induction ts generalizing d name with
  | nil => exact List.cons_ne_nil _ _
  | cons t ts ih =>
    unfold traitNames
    split
    · exact ih _ _
    · split
      · split
        · exact List.cons_ne_nil _ _
        · exact ih _ _
      · split
        · exact List.cons_ne_nil _ _
        · split
          · exact ih _ _
          · exact ih _ _

/-- A list with an identifier outside inner brackets names a trait. -/
theorem Balanced.traitNames_ne_nil {ts : List Token} (h : Balanced ts) {u : Token}
    (hu : u.kind = .ident) (us : List Token) : traitNames 1 none (ts ++ u :: us) ≠ [] := by
  obtain ⟨names, last, -, hread⟩ := h.traitNames_entries none
  have hpunct : ∀ s, u.isPunct s = false := fun s => by rw [Token.isPunct, hu]; rfl
  rw [hread]
  apply List.append_ne_nil_of_right_ne_nil
  cases last with
  | some name => exact traitNames_some_ne_nil 1 name (u :: us)
  | none =>
    have hnamed : traitNames 1 none (u :: us) = traitNames 1 (some u.text) us := by
      rw [traitNames, Token.isOpener, Token.isCloser]
      simp [hpunct, hu]
    rw [hnamed]
    exact traitNames_some_ne_nil 1 u.text us

end Struct

end MojoLint
