import MojoLint.Proofs.Traits.Grammar

/-!
# Parameter lists

The parameters of a declaration stand in brackets and are separated by commas, and a parameter may
hold brackets with commas of their own. Here such lists are given by their tokens: what is properly
nested (`Nested`), what it shows outside its brackets (`Level`), and how it is cut at the commas
there (`Items`). Every properly nested list is cut in one way or another (`Nested.exists_items`).
-/

namespace MojoLint.Declaration

open Token (sign)

/-- A kind of bracket, as it is opened and closed. -/
abbrev Bracket := Text × Text

/-- Every kind of bracket. -/
def allBrackets : List Bracket := ("\x7b", "\x7d") :: Struct.brackets

theorem of_allBrackets {p : Text → Text → Prop} {o c : Text} (h : (o, c) ∈ allBrackets)
    (hcurly : p "\x7b" "\x7d") (hparen : p "(" ")") (hsquare : p "[" "]") : p o c := by
  rcases List.mem_cons.1 h with heq | h
  · cases heq
    exact hcurly
  · exact Struct.of_brackets h hparen hsquare

/-- The brackets among the tokens are of these kinds and properly nested. -/
inductive Nested (kinds : List Bracket) : List Token → Prop
  | nil : Nested kinds []
  | plain {t : Token} {ts : List Token} (opens : Block.opens t = false)
      (closes : Block.closes t = false) (rest : Nested kinds ts) : Nested kinds (t :: ts)
  | group {o c : Text} {ts us : List Token} (kind : (o, c) ∈ kinds) (a b : UInt32)
      (inner : Nested kinds ts) (rest : Nested kinds us) :
      Nested kinds (sign o a :: (ts ++ sign c b :: us))

/-- The tokens are properly nested. Outside their brackets every token satisfies `p`, and these
brackets are of the kinds `outer`. -/
inductive Level (kinds outer : List Bracket) (p : Token → Bool) : List Token → Prop
  | nil : Level kinds outer p []
  | plain {t : Token} {ts : List Token} (opens : Block.opens t = false)
      (closes : Block.closes t = false) (holds : p t = true) (rest : Level kinds outer p ts) :
      Level kinds outer p (t :: ts)
  | group {o c : Text} {ts us : List Token} (kind : (o, c) ∈ outer) (a b : UInt32)
      (inner : Nested kinds ts) (rest : Level kinds outer p us) :
      Level kinds outer p (sign o a :: (ts ++ sign c b :: us))

/-- Properly nested tokens with no comma outside their brackets. -/
abbrev IsItem (kinds : List Bracket) (ts : List Token) : Prop :=
  Level kinds kinds (fun t => !t.isPunct ",") ts

/-- The tokens are these items with single commas between them. -/
inductive Items (kinds : List Bracket) : List Token → List (List Token) → Prop
  | one {item : List Token} (single : IsItem kinds item) : Items kinds item [item]
  | more {item ts : List Token} {items : List (List Token)} (c : UInt32)
      (single : IsItem kinds item) (rest : Items kinds ts items) :
      Items kinds (item ++ sign "," c :: ts) (item :: items)

section

variable {kinds outer : List Bracket} {p : Token → Bool} {ts us : List Token}

theorem Level.append (hts : Level kinds outer p ts) (hus : Level kinds outer p us) :
    Level kinds outer p (ts ++ us) := by
  induction hts with
  | nil => exact hus
  | plain opens closes holds rest ih => exact .plain opens closes holds ih
  | group kind a b inner rest ih =>
    rw [List.cons_append, List.append_assoc]
    exact .group kind a b inner ih

/-- More tokens in front belong to the first item. -/
theorem Items.append_front {front : List Token} {items : List (List Token)}
    (hfront : IsItem kinds front) (h : Items kinds ts items) :
    ∃ items, Items kinds (front ++ ts) items := by
  cases h with
  | one single => exact ⟨_, .one (hfront.append single)⟩
  | more c single rest =>
    rw [← List.append_assoc]
    exact ⟨_, .more c (hfront.append single) rest⟩

/-- **A properly nested list is a list of items.** -/
theorem Nested.exists_items (h : Nested kinds ts) : ∃ items, Items kinds ts items := by
  induction h with
  | nil => exact ⟨_, .one .nil⟩
  | @plain t ts opens closes rest ih =>
    obtain ⟨items, hitems⟩ := ih
    by_cases hcomma : t.isPunct "," = true
    · have ht : t = sign "," t.column := by
        simp only [Token.isPunct, Bool.and_eq_true, beq_iff_eq] at hcomma
        rw [sign, ← hcomma.1, ← hcomma.2]
      rw [ht]
      exact ⟨_, .more t.column .nil hitems⟩
    · exact hitems.append_front (.plain opens closes (by simpa using hcomma) .nil)
  | @group o c ts us kind a b inner rest ihinner ihrest =>
    obtain ⟨items, hitems⟩ := ihrest
    have hgroup : IsItem kinds (sign o a :: (ts ++ [sign c b])) := .group kind a b inner .nil
    have := hitems.append_front hgroup
    simpa using this

/-- Blank tokens and columns mean nothing to the nesting. -/
theorem Nested.of_thinned (hkinds : ∀ o c, (o, c) ∈ kinds → o ∈ Token.signs ∧ c ∈ Token.signs)
    (h : Nested kinds ts) (hus : Token.Thinned us ts) : Nested kinds us := by
  induction h generalizing us with
  | nil =>
    cases hus
    exact .nil
  | @plain t ts opens closes rest ih =>
    cases hus with
    | @keep u _ us _ kind text thinned =>
      have hpunct := Token.isPunct_congr kind text
      refine .plain ?_ ?_ (ih thinned)
      · rw [← opens, Block.opens, Block.opens, hpunct, hpunct, hpunct]
      · rw [← closes, Block.closes, Block.closes, hpunct, hpunct, hpunct]
    | drop blank thinned => exact ih thinned
  | group kind a b inner rest ihinner ihrest =>
    obtain ⟨hopen, hclose⟩ := hkinds _ _ kind
    obtain ⟨a', us, rfl, hthinned⟩ := Struct.exists_sign_of_thinned hopen hus
    obtain ⟨us, vs, rfl, hinner, hbehind⟩ := hthinned.exists_append
    obtain ⟨b', vs, rfl, hrest⟩ := Struct.exists_sign_of_thinned hclose hbehind
    exact .group kind a' b' (ihinner hinner) (ihrest hrest)

end

end MojoLint.Declaration
