import MojoLint.Proofs.Traits.Grammar
import MojoLint.Traits.Insertion

/-!
# The walk through a struct header

New traits go where the walk through the tokens of a header ends: at the parenthesis that closes the
trait list or, without a list, behind the name and the parameters. The walk is described here on
headers given by their tokens. It counts brackets like the reader of traits, over the lines of the
file instead of over the header text.
-/

namespace MojoLint

namespace Traits

open Struct (Balanced IsParameters IsTraitList IsHeader brackets of_brackets)
open Token (sign word)

/-! ## The walk -/

/-- Tokens with their offsets in a file. -/
abbrev Placed := List (UInt32 × Token)

/-- What a walk does at a token. -/
inductive Step where
  | onward (w : Walk)
  | listEnd (offset : UInt32)
  /-- The colon outside all brackets. -/
  | stop

/-- One step of a walk, at a token that stands at `offset`. -/
def step (name : Text) (w : Walk) (offset : UInt32) (t : Token) : Step :=
  if w.spot.isNone then
    if t.isIdent name then .onward { w with spot := some (offset + t.text.length.toUInt32) }
    else .onward w
  else if t.isOpener then
    let group :=
      if w.depth = 0 then some (if t.isPunct "[" then Group.parameters else .traits) else w.group
    .onward { w with depth := w.depth + 1, group }
  else if t.isCloser then
    if w.depth = 1 then
      match w.group with
      | some .traits => .listEnd offset
      | some .parameters => .onward { w with depth := 0, group := none, spot := some (offset + 1) }
      | none => .onward { w with depth := 0 }
    else .onward { w with depth := w.depth - 1 }
  else if w.depth = 0 && t.isPunct ":" then .stop
  else .onward w

theorem walkLine_cons (name : Text) (start : UInt32) (w : Walk) (t : Token) (ts : List Token) :
    walkLine name start w (t :: ts) =
      match step name w (start + t.column) t with
      | .onward next => walkLine name start next ts
      | .listEnd offset => .listEnd offset
      | .stop => .onward w := by
  obtain ⟨depth, group, spot⟩ := w
  rw [walkLine, step]
  simp only
  split
  · split <;> rfl
  · split
    · rfl
    · split
      · split
        · cases group with
          | none => rfl
          | some group => cases group <;> rfl
        · rfl
      · split <;> rfl

/-- The walk over tokens where it neither stops nor meets the end of a trait list. -/
def pass (name : Text) (w : Walk) : Placed → Option Walk
  | [] => some w
  | (offset, t) :: rest =>
    match step name w offset t with
    | .onward next => pass name next rest
    | _ => none

theorem pass_append (name : Text) (w : Walk) (xs ys : Placed) :
    pass name w (xs ++ ys) = (pass name w xs).bind (pass name · ys) := by
  induction xs generalizing w with
  | nil => rfl
  | cons x xs ih =>
    obtain ⟨offset, t⟩ := x
    simp only [List.cons_append, pass]
    split
    · exact ih _
    · rfl

/-- Behind the name and inside a bracket, a walk passes over what is properly nested. -/
theorem pass_balanced (name : Text) (p : UInt32) {ts : List Token} (h : Balanced ts) {xs : Placed}
    (hxs : xs.map Prod.snd = ts) (d : Nat) (group : Option Group) :
    pass name ⟨(d : Int) + 1, group, some p⟩ xs = some ⟨(d : Int) + 1, group, some p⟩ := by
  induction h generalizing d xs with
  | nil =>
    obtain rfl := List.map_eq_nil_iff.1 hxs
    rfl
  | @plain t ts opens closes rest ih =>
    obtain ⟨⟨offset, t⟩, xs, rfl, rfl, rfl⟩ := List.map_eq_cons_iff.1 hxs
    obtain ⟨hopener, hcloser, -, -⟩ := Balanced.of_plain opens closes
    have hdepth : ((d : Int) + 1 = 0) = False := eq_false (by omega)
    have hstep : step name ⟨(d : Int) + 1, group, some p⟩ offset t =
        .onward ⟨(d : Int) + 1, group, some p⟩ := by
      simp [step, hopener, hcloser, hdepth]
    rw [pass, hstep]
    exact ih rfl d
  | @group o c ts us pair a b inner rest ihinner ihrest =>
    obtain ⟨⟨offset, _⟩, zs, rfl, rfl, hzs⟩ := List.map_eq_cons_iff.1 hxs
    obtain ⟨xs, ys, rfl, hinner, hys⟩ := List.map_eq_append_iff.1 hzs
    obtain ⟨⟨offset', _⟩, ys, rfl, rfl, hrest⟩ := List.map_eq_cons_iff.1 hys
    have hopener : (sign o a).isOpener = true := by apply of_brackets pair <;> rfl
    have hcloser : (sign c b).isOpener = false ∧ (sign c b).isCloser = true := by
      apply of_brackets pair <;> exact ⟨rfl, rfl⟩
    have hdepth : ((d : Int) + 1 = 0) = False := eq_false (by omega)
    have hdepth' : ((d : Int) + 1 + 1 = 1) = False := eq_false (by omega)
    have hopen : step name ⟨(d : Int) + 1, group, some p⟩ offset (sign o a) =
        .onward ⟨((d + 1 : Nat) : Int) + 1, group, some p⟩ := by
      simp [step, hopener, hdepth]
    have hclose : step name ⟨((d + 1 : Nat) : Int) + 1, group, some p⟩ offset' (sign c b) =
        .onward ⟨(d : Int) + 1, group, some p⟩ := by
      simp [step, hcloser, hdepth']
    rw [pass, hopen]
    simp only
    rw [pass_append, ihinner hinner (d + 1), Option.bind_some, pass, hclose]
    exact ihrest hrest d

/-- Behind the name a walk knows a place for a trait list. A struct named like the keyword is met at
the keyword. -/
theorem pass_name (name : Text) (a b offset offset' : UInt32) :
    pass name ⟨0, none, none⟩ [(offset, word "struct" a), (offset', word name b)] =
      some ⟨0, none, some (if name = "struct" then offset + ("struct" : Text).length.toUInt32
        else offset' + name.length.toUInt32)⟩ := by
  by_cases hname : name = "struct"
  · subst hname
    rw [if_pos rfl]
    rfl
  · have hne : (("struct" : Text) == name) = false := beq_eq_false_iff_ne.2 (Ne.symm hname)
    rw [if_neg hname]
    simp [pass, step, word, Token.isIdent, hne]

/-- Behind the parameters a list goes where they end. -/
theorem pass_parameters (name : Text) (p : UInt32) {params : List Token}
    (hparams : IsParameters params) {xs : Placed} (hxs : xs.map Prod.snd = params) :
    (params = [] ∧ pass name ⟨0, none, some p⟩ xs = some ⟨0, none, some p⟩) ∨
      ∃ init offset t, xs = init ++ [(offset, t)] ∧ pass name ⟨0, none, some p⟩ xs =
        some ⟨0, none, some (offset + t.text.length.toUInt32)⟩ := by
  cases hparams with
  | none =>
    obtain rfl := List.map_eq_nil_iff.1 hxs
    exact .inl ⟨rfl, rfl⟩
  | @some ts c d inner =>
    obtain ⟨⟨opened, _⟩, us, rfl, rfl, hus⟩ := List.map_eq_cons_iff.1 hxs
    obtain ⟨inside, ends, rfl, hinside, hends⟩ := List.map_eq_append_iff.1 hus
    obtain ⟨⟨closed, _⟩, behind, rfl, rfl, hbehind⟩ := List.map_eq_cons_iff.1 hends
    obtain rfl := List.map_eq_nil_iff.1 hbehind
    refine .inr ⟨(opened, sign "[" c) :: inside, closed, sign "]" d, rfl, ?_⟩
    have hinner := pass_balanced name p inner hinside 0 (some .parameters)
    simp only [Int.natCast_zero, Int.zero_add] at hinner
    have hbracket : pass name ⟨0, none, some p⟩
        ((opened, sign "[" c) :: (inside ++ [(closed, sign "]" d)])) =
          pass name ⟨1, some .parameters, some p⟩ (inside ++ [(closed, sign "]" d)]) := rfl
    rw [hbracket, pass_append, hinner]
    rfl

/-- The tokens of a name and its parameters, at their offsets. -/
theorem exists_named {name : Text} {a b : UInt32} {behind : List Token} {xs : Placed}
    (hxs : xs.map Prod.snd = word "struct" a :: word name b :: behind) :
    ∃ offset offset' ys, xs = [(offset, word "struct" a), (offset', word name b)] ++ ys ∧
      ys.map Prod.snd = behind := by
  obtain ⟨⟨offset, _⟩, ys, rfl, rfl, hys⟩ := List.map_eq_cons_iff.1 hxs
  obtain ⟨⟨offset', _⟩, zs, rfl, rfl, hzs⟩ := List.map_eq_cons_iff.1 hys
  exact ⟨offset, offset', zs, rfl, hzs⟩

/-- Up to its trait list, a walk through a header knows where to put one: behind the last token.
Only a struct named like the keyword needs parameters for that. -/
theorem pass_front {name : Text} {a b : UInt32} {params : List Token}
    (hname : name = "struct" → params ≠ []) (hparams : IsParameters params) {xs : Placed}
    (hxs : xs.map Prod.snd = word "struct" a :: word name b :: params) :
    ∃ init offset t, xs = init ++ [(offset, t)] ∧ pass name ⟨0, none, none⟩ xs =
      some ⟨0, none, some (offset + t.text.length.toUInt32)⟩ := by
  obtain ⟨offset, offset', ys, rfl, hys⟩ := exists_named hxs
  rw [pass_append, pass_name, Option.bind_some]
  rcases pass_parameters name _ hparams hys with ⟨hnone, hpass⟩ | ⟨init, last, t, rfl, hpass⟩
  · rw [hpass, if_neg fun h => hname h hnone]
    rw [hnone] at hys
    obtain rfl := List.map_eq_nil_iff.1 hys
    exact ⟨[(offset, word "struct" a)], offset', word name b, rfl, rfl⟩
  · rw [hpass, ← List.append_assoc]
    exact ⟨_, last, t, rfl, rfl⟩

/-- Inside the trait list a walk waits for the parenthesis that ends it. -/
theorem pass_list {name : Text} {a b c : UInt32} {params ts : List Token}
    (hparams : IsParameters params) (inner : Balanced ts) {xs : Placed}
    (hxs : xs.map Prod.snd =
      word "struct" a :: word name b :: (params ++ sign "(" c :: ts)) :
    ∃ p, pass name ⟨0, none, none⟩ xs = some ⟨1, some .traits, some p⟩ := by
  obtain ⟨named, named', ys, rfl, hys⟩ := exists_named hxs
  obtain ⟨params', list, rfl, hparams', hlist⟩ := List.map_eq_append_iff.1 hys
  obtain ⟨⟨offset, _⟩, inside, rfl, rfl, hinside⟩ := List.map_eq_cons_iff.1 hlist
  rw [pass_append, pass_name, Option.bind_some, pass_append]
  obtain ⟨p, hpass⟩ : ∃ p, pass name ⟨0, none, some (if name = "struct"
      then named + ("struct" : Text).length.toUInt32 else named' + name.length.toUInt32)⟩ params' =
        some ⟨0, none, some p⟩ := by
    rcases pass_parameters name _ hparams hparams' with ⟨-, hpass⟩ | ⟨_, last, t, -, hpass⟩ <;>
    exact ⟨_, hpass⟩
  have hinner := pass_balanced name p inner hinside 0 (some .traits)
  simp only [Int.natCast_zero, Int.zero_add] at hinner
  have hopen : pass name ⟨0, none, some p⟩ ((offset, sign "(" c) :: inside) =
      pass name ⟨1, some .traits, some p⟩ inside := rfl
  exact ⟨p, by rw [hpass, Option.bind_some, hopen, hinner]⟩

/-! ## The walk over rows -/

/-- The tokens of a row without its comment, at their offsets. -/
def placedRow (r : Row) : Placed := r.codeTokens.map fun t => (r.offset + t.column, t)

/-- The tokens of rows without their comments, at their offsets. -/
def placed (rows : List Row) : Placed := rows.flatMap placedRow

theorem walkLine_of_pass {name : Text} {start : UInt32} {w next : Walk} {ts : List Token}
    (h : pass name w (ts.map fun t => (start + t.column, t)) = some next) (us : List Token) :
    walkLine name start w (ts ++ us) = walkLine name start next us := by
  induction ts generalizing w with
  | nil =>
    cases h
    rfl
  | cons t ts ih =>
    rw [List.map_cons, pass] at h
    rw [List.cons_append, walkLine_cons]
    split at h
    · rename_i w' hstep
      rw [hstep]
      exact ih h
    · cases h

/-- A comment means nothing to a walk. -/
theorem walkLine_dropComment (name : Text) (start : UInt32) (w : Walk) (ts : List Token) :
    walkLine name start w ts = walkLine name start w (Token.dropComment ts) := by
  rcases Token.dropComment_spec ts with h | ⟨comment, hcomment, h⟩
  · rw [h]
  · have hstep : ∀ w offset, step name w offset comment = .onward w := by
      intro w offset
      simp [step, Token.isIdent, Token.isOpener, Token.isCloser, Token.isPunct, hcomment]
    have hskip : ∀ init w, walkLine name start w (init ++ [comment]) =
        walkLine name start w init := by
      intro init
      induction init with
      | nil =>
        intro w
        rw [List.nil_append, walkLine_cons, hstep]
      | cons u init ih =>
        intro w
        rw [List.cons_append, walkLine_cons, walkLine_cons]
        split
        · exact ih _
        · rfl
        · rfl
    calc walkLine name start w ts
        = walkLine name start w (Token.dropComment ts ++ [comment]) := by rw [← h]
      _ = walkLine name start w (Token.dropComment ts) := hskip _ _

theorem walkRows_cons (name : Text) (w : Walk) (r : Row) (rs : List Row) :
    walkRows name w (r :: rs) =
      match walkLine name r.offset w r.codeTokens with
      | .listEnd offset => .listEnd offset
      | .onward next => walkRows name next rs := by
  rw [walkRows, walkLine_dropComment]
  rfl

theorem walkRows_of_pass {name : Text} {w next : Walk} {above : List Row}
    (h : pass name w (placed above) = some next) (below : List Row) :
    walkRows name w (above ++ below) = walkRows name next below := by
  induction above generalizing w with
  | nil =>
    cases h
    rfl
  | cons r rs ih =>
    have hplaced : placed (r :: rs) = placedRow r ++ placed rs := List.flatMap_cons
    rw [hplaced, pass_append] at h
    cases hrow : pass name w (placedRow r) with
    | none =>
      rw [hrow] at h
      cases h
    | some w' =>
      rw [hrow] at h
      have hline := walkLine_of_pass hrow []
      rw [List.append_nil] at hline
      rw [List.cons_append, walkRows_cons, hline]
      exact ih h

/-! ## Where a walk ends -/

section

variable {name : Text} {above : List Row} {r : Row} {ts us : List Token}

/-- A walk that passes over the rows above ends on the last one. -/
theorem walkRows_concat (hrow : r.codeTokens = ts ++ us) {w next : Walk}
    (hpass : pass name w (placed above ++ ts.map fun u => (r.offset + u.column, u)) = some next) :
    walkRows name w (above ++ [r]) = walkLine name r.offset next us := by
  rw [pass_append] at hpass
  obtain ⟨entered, habove, hline⟩ := Option.bind_eq_some_iff.1 hpass
  rw [walkRows_of_pass habove, walkRows_cons, hrow, walkLine_of_pass hline]
  cases walkLine name r.offset next us <;> rfl

theorem map_snd_placed (rows : List Row) :
    (placed rows).map Prod.snd = rows.flatMap Row.codeTokens := by
  unfold placed placedRow
  rw [List.map_flatMap]
  simp only [List.map_map]
  congr 1
  funext row
  exact List.map_id _

theorem map_snd_front (above : List Row) (r : Row) (ts : List Token) :
    (placed above ++ ts.map fun u => (r.offset + u.column, u)).map Prod.snd =
      above.flatMap Row.codeTokens ++ ts := by
  rw [List.map_append, map_snd_placed, List.map_map]
  congr 1
  exact List.map_id _

variable {a b c : UInt32} {params : List Token}

/-- **Without a list** a walk ends behind the name and the parameters. -/
theorem walkRows_front {t : Token} (hname : name = "struct" → params ≠ [])
    (hparams : IsParameters params)
    (hfront : above.flatMap Row.codeTokens ++ (ts ++ [t]) =
      word "struct" a :: word name b :: params)
    (hrow : r.codeTokens = (ts ++ [t]) ++ sign ":" c :: us) :
    walkRows name ⟨0, none, none⟩ (above ++ [r]) =
      .onward ⟨0, none, some (r.offset + t.column + t.text.length.toUInt32)⟩ := by
  rw [← map_snd_front above r] at hfront
  obtain ⟨init, offset, u, hlast, hpass⟩ := pass_front hname hparams hfront
  rw [List.map_append, ← List.append_assoc] at hlast
  obtain ⟨-, hlast⟩ := List.append_inj' hlast rfl
  cases hlast
  rw [walkRows_concat hrow hpass]
  rfl

/-- A struct named like the keyword, with nothing but its name, gets its list behind the keyword. -/
theorem walkRows_keyword (habove : above.flatMap Row.codeTokens = [])
    (hrow : r.codeTokens = word "struct" a :: word "struct" b :: sign ":" c :: us) :
    walkRows "struct" ⟨0, none, none⟩ (above ++ [r]) =
      .onward ⟨0, none, some (r.offset + a + ("struct" : Text).length.toUInt32)⟩ := by
  rw [← map_snd_placed] at habove
  have hplaced := List.map_eq_nil_iff.1 habove
  have hpass : pass "struct" ⟨0, none, none⟩
      (placed above ++ [(r.offset + a, word "struct" a), (r.offset + b, word "struct" b)]) =
        some ⟨0, none, some (r.offset + a + ("struct" : Text).length.toUInt32)⟩ := by
    rw [hplaced, List.nil_append, pass_name, if_pos rfl]
  have hrow' : r.codeTokens = [word "struct" a, word "struct" b] ++ sign ":" c :: us := hrow
  rw [walkRows_concat hrow' hpass]
  rfl

/-- **With a list** it ends at the parenthesis that closes the list. -/
theorem walkRows_list {content : List Token} {d : UInt32} (hparams : IsParameters params)
    (inner : Balanced content)
    (hfront : above.flatMap Row.codeTokens ++ ts =
      word "struct" a :: word name b :: (params ++ sign "(" c :: content))
    (hrow : r.codeTokens = ts ++ sign ")" d :: us) :
    walkRows name ⟨0, none, none⟩ (above ++ [r]) = .listEnd (r.offset + d) := by
  rw [← map_snd_front above r] at hfront
  obtain ⟨p, hpass⟩ := pass_list hparams inner hfront
  rw [walkRows_concat hrow hpass]
  rfl

end

end Traits

end MojoLint
