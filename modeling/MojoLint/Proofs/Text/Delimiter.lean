import MojoLint.Proofs.Balance.Neutral
import MojoLint.Proofs.Exclusion.Pass

/-!
# Delimiters between words and a tail

Words at the start of a line move its delimiters and do nothing else to them, and a tail without
quotes does nothing to them at all. So the pass over the lines finds out the same about two lines
that differ in such words of one length and in such a tail (`flags_between`, `next_between`).
-/

namespace MojoLint

/-- A byte of a name or between two tokens. -/
def Byte.isWordy (b : UInt8) : Bool := isIdentPart b || isGap b

theorem Byte.isQuote_of_isWordy : ∀ {b : UInt8}, isWordy b = true → isQuote b = false :=
  @(all (by decide))

/-- The bytes are words and the gaps between them. -/
def IsWords (p : Text) : Prop := ∀ b ∈ p, Byte.isWordy b = true

theorem IsWords.noQuote {p : Text} (h : IsWords p) : NoQuote p := fun b hb =>
  Byte.isQuote_of_isWordy (h b hb)

namespace Delimiter

/-! ## The first delimiter -/

theorem isPrefixOf_triple_cons {b : UInt8} (hb : Byte.isQuote b = false) (t : Text) :
    triple.isPrefixOf (b :: t) = false := by
  have hne : (Byte.quote == b) = false := by
    rw [beq_eq_false_iff_ne]
    rintro rfl
    cases hb
  simp [triple, List.isPrefixOf, hne]

theorem find_cons (b : UInt8) (t : Text) :
    Text.find triple (b :: t) =
      if triple.isPrefixOf (b :: t) then some 0 else (Text.find triple t).map (· + 1) := rfl

theorem find_noQuote_append {p : Text} (h : NoQuote p) (t : Text) :
    Text.find triple (p ++ t) = (Text.find triple t).map (· + p.length) := by
  induction p with
  | nil => simp
  | cons b p ih =>
    obtain ⟨hb, hrest⟩ := List.forall_mem_cons.1 h
    rw [List.cons_append, find_cons, isPrefixOf_triple_cons hb, ih hrest, if_neg (by simp),
      Option.map_map]
    rfl

theorem find_noQuote {t : Text} (h : NoQuote t) : Text.find triple t = none := by
  have hnone : (Text.find triple []).map (· + t.length) = none := rfl
  rw [← hnone, ← find_noQuote_append h, List.append_nil]

theorem find_append_noQuote {u : Text} (h : NoQuote u) (t : Text) :
    Text.find triple (t ++ u) = Text.find triple t := by
  induction t with
  | nil =>
    rw [List.nil_append, find_noQuote h]
    rfl
  | cons b t ih =>
    rw [List.cons_append, find_cons, find_cons, ih, ← List.cons_append,
      Token.isPrefixOf_append Balance.isQuote_triple h]

/-- A delimiter that is found lies within the text. -/
theorem find_add_le {t : Text} {c : Nat} (h : Text.find triple t = some c) : c + 3 ≤ t.length := by
  induction t generalizing c with
  | nil => cases h
  | cons b t ih =>
    rw [find_cons] at h
    split at h
    · rename_i hprefix
      cases h
      exact (List.isPrefixOf_iff_prefix.1 hprefix).length_le
    · obtain ⟨d, hd, rfl⟩ := Option.map_eq_some_iff.1 h
      have := ih hd
      rw [List.length_cons]
      omega

theorem find_between {p u : Text} (hp : NoQuote p) (hu : NoQuote u) (t : Text) :
    Text.find triple (p ++ (t ++ u)) = (Text.find triple t).map (· + p.length) := by
  rw [find_noQuote_append hp, find_append_noQuote hu]

theorem occursIn_between {p u : Text} (hp : NoQuote p) (hu : NoQuote u) (t : Text) :
    occursIn (p ++ (t ++ u)) = occursIn t := by
  unfold occursIn Text.contains
  rw [find_between hp hu, Option.isSome_map]

/-! ## Their number -/

theorem count_cons_noQuote {b : UInt8} (hb : Byte.isQuote b = false) (t : Text) :
    count (b :: t) = count t := by
  have hne : b ≠ Byte.quote := by
    rintro rfl
    cases hb
  match t with
  | [] => rfl
  | [c] => rfl
  | c :: d :: t =>
    conv => lhs; unfold count
    simp [hne]

theorem count_noQuote_append {p : Text} (h : NoQuote p) (t : Text) : count (p ++ t) = count t := by
  induction p with
  | nil => rfl
  | cons b p ih =>
    obtain ⟨hb, hrest⟩ := List.forall_mem_cons.1 h
    rw [List.cons_append, count_cons_noQuote hb, ih hrest]

theorem count_eq_zero {u : Text} (h : NoQuote u) : count u = 0 := by
  have hcount := count_noQuote_append h []
  rwa [List.append_nil] at hcount

/-- A quote that is not followed by two more is no delimiter. -/
theorem count_cons_eq_zero {u : Text} (h : NoQuote u) (a : UInt8) : count (a :: u) = 0 := by
  match u with
  | [] => rfl
  | [b] => rfl
  | b :: c :: u =>
    have hb : b ≠ Byte.quote := by
      rintro rfl
      cases h _ List.mem_cons_self
    unfold count
    rw [if_neg (by simp [hb]), count_eq_zero h]

theorem count_append_noQuote {u : Text} (h : NoQuote u) (t : Text) : count (t ++ u) = count t := by
  fun_induction count t with
  | case1 a b c rest hquotes ih =>
    rw [List.cons_append, List.cons_append, List.cons_append, count, if_pos hquotes, ih]
  | case2 a b c rest hquotes ih =>
    rw [List.cons_append, List.cons_append, List.cons_append, count, if_neg hquotes]
    exact ih
  | case3 t hshort =>
    match t with
    | [] => exact count_eq_zero h
    | [a] => exact count_cons_eq_zero h a
    | [a, b] =>
      match u with
      | [] => rfl
      | c :: u =>
        have hc : c ≠ Byte.quote := by
          rintro rfl
          cases h _ List.mem_cons_self
        rw [List.cons_append, List.cons_append, List.nil_append, count, if_neg (by simp [hc]),
          count_cons_eq_zero h]
    | a :: b :: c :: rest => exact absurd rfl (hshort a b c rest)

theorem count_between {p u : Text} (hp : NoQuote p) (hu : NoQuote u) (t : Text) :
    count (p ++ (t ++ u)) = count t := by
  rw [count_noQuote_append hp, count_append_noQuote hu]

/-! ## Assigned literals -/

theorem assigns_congr {a b : UInt8}
    (h : (a == Byte.equals || a == Byte.bang || a == Byte.less || a == Byte.greater) =
      (b == Byte.equals || b == Byte.bang || b == Byte.less || b == Byte.greater)) (t : Text) :
    assigns a t = assigns b t := by
  cases t with
  | nil => rfl
  | cons c t => rw [assigns, assigns, h]

/-- Words hold no assignment sign, and are no part of one. -/
theorem assigns_words {p : Text} (h : IsWords p) (t : Text) :
    assigns Byte.space (p ++ t) = assigns Byte.space t := by
  have hequals : ∀ {b}, Byte.isWordy b = true → (b == Byte.equals) = false :=
    @(Byte.all (by decide))
  have hsign : ∀ {b}, Byte.isWordy b = true →
      (b == Byte.equals || b == Byte.bang || b == Byte.less || b == Byte.greater) =
        (Byte.space == Byte.equals || Byte.space == Byte.bang || Byte.space == Byte.less ||
          Byte.space == Byte.greater) := @(Byte.all (by decide))
  induction p with
  | nil => rfl
  | cons b p ih =>
    obtain ⟨hb, hrest⟩ := List.forall_mem_cons.1 h
    rw [List.cons_append, assigns, hequals hb, Bool.false_and, Bool.false_and, Bool.false_or,
      assigns_congr (hsign hb), ih hrest]

theorem assignedOpener_between {p u : Text} (hp : IsWords p) (hu : NoQuote u) (t : Text) :
    assignedOpener (p ++ (t ++ u)) = (assignedOpener t).map (· + p.length) := by
  unfold assignedOpener
  rw [find_between hp.noQuote hu]
  cases hfind : Text.find triple t with
  | none => rfl
  | some c =>
    have hle := find_add_le hfind
    have htake : (p ++ (t ++ u)).take (c + p.length) = p ++ t.take c := by
      rw [List.take_append, List.take_of_length_le (by omega), Nat.add_sub_cancel,
        List.take_append_of_le_length (by omega)]
    simp only [Option.map_some, Option.filter_some, htake, assigns_words hp]
    split <;> rfl

theorem closesAfter_between {p u : Text} (hu : NoQuote u) {t : Text} {c : Nat}
    (h : c + 3 ≤ t.length) : closesAfter (p ++ (t ++ u)) (c + p.length) = closesAfter t c := by
  have hdrop : (p ++ (t ++ u)).drop (c + p.length + 3) = t.drop (c + 3) ++ u := by
    rw [List.drop_append, List.drop_eq_nil_of_le (by omega), List.nil_append,
      show c + p.length + 3 - p.length = c + 3 by omega, List.drop_append_of_le_length h]
  unfold closesAfter
  rw [hdrop]
  exact occursIn_between (p := []) nofun hu (t.drop (c + 3))

end Delimiter

namespace Exclusion.State

variable {p p' u u' : Text}

theorem literalAfter_between (hp : IsWords p) (hu : NoQuote u) (s : State) (t : Text) :
    s.literalAfter (p ++ (t ++ u)) = s.literalAfter t := by
  unfold literalAfter
  rw [Delimiter.assignedOpener_between hp hu, Delimiter.occursIn_between hp.noQuote hu]
  cases hopener : Delimiter.assignedOpener t with
  | none => rfl
  | some c =>
    have hfind : Text.find Delimiter.triple t = some c := (Option.filter_eq_some_iff.1 hopener).1
    simp only [Option.map_some,
      Delimiter.closesAfter_between (p := p) hu (Delimiter.find_add_le hfind)]

theorem docAfter_between (hp : NoQuote p) (hu : NoQuote u) (s : State) (t : Text) :
    s.docAfter (p ++ (t ++ u)) = s.docAfter t := by
  unfold docAfter
  rw [Delimiter.count_between hp hu]

/-- The pass goes on as behind another line with the same delimiters. -/
theorem next_between (hp : IsWords p) (hu : NoQuote u) (s : State) (t : Text) :
    s.next (p ++ (t ++ u)) = s.next t := by
  unfold next
  rw [literalAfter_between hp hu, docAfter_between hp.noQuote hu]

/-- And it finds out the same about the lines, when the delimiters are at the same places. -/
theorem flags_between (hp : IsWords p) (hp' : IsWords p') (hlength : p'.length = p.length)
    (hu : NoQuote u) (hu' : NoQuote u') (s : State) (t : Text) :
    s.flags (p' ++ (t ++ u')) = s.flags (p ++ (t ++ u)) := by
  have hend : Delimiter.firstEnd (p' ++ (t ++ u')) = Delimiter.firstEnd (p ++ (t ++ u)) := by
    unfold Delimiter.firstEnd
    rw [Delimiter.find_between hp'.noQuote hu', Delimiter.find_between hp.noQuote hu, hlength]
  unfold flags
  rw [hend, docAfter_between hp'.noQuote hu', docAfter_between hp.noQuote hu,
    Delimiter.occursIn_between hp'.noQuote hu', Delimiter.occursIn_between hp.noQuote hu]

end Exclusion.State

end MojoLint
