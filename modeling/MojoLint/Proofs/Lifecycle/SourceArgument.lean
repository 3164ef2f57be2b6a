import MojoLint.Lifecycle.SourceArgument
import MojoLint.Proofs.Token.Slices
import MojoLint.Proofs.Token.Spaces

/-!
# What the source argument of a header depends on

A header can run on over lines of the body when its brackets are not closed. Statements that copy
fields, `self` in front, then stand in the header text, and yet their order makes no difference to
its source argument (`sourceArgument?_between`): they hold neither brackets nor commas, so they all
belong to one group of tokens, and no group declares a name at a `self` without a colon. Where they
stand in a literal that is still open they do not show at all.
-/

namespace MojoLint

/-- A byte of a statement that copies a field, or of the white space in it. -/
def Byte.isFlat (b : UInt8) : Bool := isIdentPart b || isGap b || b == dot || b == equals || b == 94

namespace Token

namespace Alike

variable {t u : Token} (h : Alike t u)

include h

theorem isPunct_eq (sign : Text) : t.isPunct sign = u.isPunct sign := by
  unfold isPunct
  rw [← h.kind]
  by_cases hkind : t.kind = .punct
  · rw [h.text (.inr hkind)]
  · rw [beq_eq_false_iff_ne.2 hkind]
    rfl

theorem isOpener_eq : t.isOpener = u.isOpener := by
  rw [isOpener, isOpener, h.isPunct_eq, h.isPunct_eq]

theorem isCloser_eq : t.isCloser = u.isCloser := by
  rw [isCloser, isCloser, h.isPunct_eq, h.isPunct_eq]

end Alike

/-- The token has bytes of a statement that copies a field, and so is no bracket, comma or colon. -/
def IsFlat (t : Token) : Prop := ∀ b ∈ t.text, Byte.isFlat b = true

theorem IsFlat.isPunct_eq_false {t : Token} (h : t.IsFlat) {sign : Text} {b : UInt8}
    (hb : b ∈ sign) (hflat : Byte.isFlat b = false) : t.isPunct sign = false := by
  rw [isPunct, Bool.and_eq_false_iff]
  right
  rw [beq_eq_false_iff_ne]
  rintro rfl
  rw [h b hb] at hflat
  cases hflat

theorem IsFlat.not_structure {t : Token} (h : t.IsFlat) :
    t.isOpener = false ∧ t.isCloser = false ∧ t.isPunct "," = false ∧ t.isPunct ":" = false := by
  have hsign : ∀ {sign : Text} {b : UInt8}, b ∈ sign → Byte.isFlat b = false →
      t.isPunct sign = false := h.isPunct_eq_false
  refine ⟨?_, ?_, hsign (b := 44) (by decide) rfl, hsign (b := 58) (by decide) rfl⟩
  · rw [isOpener, hsign (b := 40) (by decide) rfl, hsign (b := 91) (by decide) rfl]
    rfl
  · rw [isCloser, hsign (b := 41) (by decide) rfl, hsign (b := 93) (by decide) rfl]
    rfl

end Token

namespace Lifecycle

open Declaration (pushLast)
open Token (Alike scan)

/-! ## Names declared by groups -/

/-- The name declared by the last of at least two groups. -/
def lastName? : List (List Token) → Option Text
  | g :: h :: gs => declaredName? ((h :: gs).getLastD g)
  | _ => none

theorem sourceArgument?_eq (header : Text) :
    sourceArgument? header = lastName? (argumentGroups 0 [] (scan 0 header)) := by
  rw [sourceArgument?, Token.ofLine]
  rcases argumentGroups 0 [] (scan 0 header) with _ | ⟨g, _ | ⟨h, gs⟩⟩ <;> rfl

theorem declaredName?_alike {ts us : List Token} (h : List.Forall₂ Alike ts us) :
    declaredName? ts = declaredName? us := by
  induction h with
  | nil => rfl
  | @cons t u ts us htu h ih =>
    cases h with
    | nil => rfl
    | @cons t' u' ts us htu' h =>
      rw [declaredName?, declaredName?, ← htu.kind, ← htu'.isPunct_eq, ih]
      by_cases hkind : t.kind = .ident
      · rw [htu.text (.inl hkind)]
      · simp [hkind]

/-- The groups declare the same name, whatever tokens are added to both. -/
def SameName (g h : List Token) : Prop :=
  ∀ us vs, List.Forall₂ Alike us vs → declaredName? (g ++ us) = declaredName? (h ++ vs)

theorem sameName_nil : SameName [] [] := fun _ _ h => declaredName?_alike h

theorem SameName.append {g h us vs : List Token} (hgh : SameName g h)
    (huv : List.Forall₂ Alike us vs) : SameName (g ++ us) (h ++ vs) := by
  intro ts ws htw
  rw [List.append_assoc, List.append_assoc]
  exact hgh _ _ (List.rel_append huv htw)

theorem SameName.declaredName?_eq {g h : List Token} (hgh : SameName g h) :
    declaredName? g = declaredName? h := by
  have hsame := hgh [] [] .nil
  rwa [List.append_nil, List.append_nil] at hsame

theorem getLastD_sameName {gs hs : List (List Token)} (hgs : List.Forall₂ SameName gs hs)
    {g h : List Token} (hgh : SameName g h) : SameName (gs.getLastD g) (hs.getLastD h) := by
  induction hgs generalizing g h with
  | nil => exact hgh
  | cons hgh' _ ih =>
    rw [List.getLastD_cons, List.getLastD_cons]
    exact ih hgh'

theorem lastName?_congr {gs hs : List (List Token)} (h : List.Forall₂ SameName gs hs) :
    lastName? gs = lastName? hs := by
  cases h with
  | nil => rfl
  | cons hgh hrest =>
    cases hrest with
    | nil => rfl
    | cons hgh' hrest =>
      exact (getLastD_sameName (.cons hgh' hrest) hgh).declaredName?_eq

/-! ## Statements in a group -/

/-- The tokens are flat, and `self` is the first of two or more. -/
inductive IsStatement : List Token → Prop
  | intro {s v : Token} {ts : List Token} (kind : s.kind = .ident) (text : s.text = "self")
      (flat : ∀ t ∈ s :: v :: ts, t.IsFlat) : IsStatement (s :: v :: ts)

/-- No name is declared behind a `self` that is not declared itself. -/
theorem declaredName?_self {s v : Token} (hs : s.kind = .ident) (htext : s.text = "self")
    (hv : v.isPunct ":" = false) (g ts : List Token) :
    declaredName? (g ++ s :: v :: ts) = declaredName? (g ++ [s]) := by
  have hself : (s.kind == .ident && !Declaration.isConvention s.text) = true := by
    rw [hs, htext]
    decide
  have hnone : declaredName? (s :: v :: ts) = none := by
    rw [declaredName?, if_pos hself, hv]
    rfl
  induction g with
  | nil => exact hnone
  | cons t g ih =>
    cases g with
    | nil =>
      simp only [List.cons_append, List.nil_append, declaredName?, hself, hv, if_true]
      rfl
    | cons u g =>
      simp only [List.cons_append] at ih ⊢
      rw [declaredName?, declaredName?, ih]

theorem SameName.append_statement {g h xs ys : List Token} (hgh : SameName g h)
    (hx : IsStatement xs) (hy : IsStatement ys) : SameName (g ++ xs) (h ++ ys) := by
  intro us vs _
  obtain ⟨hkind, htext, hflat⟩ := hx
  obtain ⟨hkind', htext', hflat'⟩ := hy
  rename_i s v ts s' v' ts'
  have hv := (hflat v (by simp)).not_structure.2.2.2
  have hv' := (hflat' v' (by simp)).not_structure.2.2.2
  rw [List.append_assoc, List.append_assoc, List.cons_append, List.cons_append, List.cons_append,
    List.cons_append, declaredName?_self hkind htext hv, declaredName?_self hkind' htext' hv']
  exact hgh _ _ (.cons ⟨hkind.trans hkind'.symm, fun _ => htext.trans htext'.symm⟩ .nil)

/-! ## Splitting tokens into groups -/

/-- The groups with tokens added to the last of them, if there is one. -/
def pushAll (xs : List Token) : List (List Token) → List (List Token)
  | [] => []
  | [g] => [g ++ xs]
  | g :: h :: gs => g :: pushAll xs (h :: gs)

theorem pushAll_singleton (t : Token) (gs : List (List Token)) : pushAll [t] gs = pushLast t gs := by
  induction gs with
  | nil => rfl
  | cons g gs ih =>
    cases gs with
    | nil => rfl
    | cons h gs => exact congrArg (g :: ·) ih

theorem pushAll_pushLast (t : Token) (xs : List Token) (gs : List (List Token)) :
    pushAll xs (pushLast t gs) = pushAll (t :: xs) gs := by
  induction gs with
  | nil => rfl
  | cons g gs ih =>
    cases gs with
    | nil => exact congrArg (fun g => [g]) (List.append_assoc g [t] xs)
    | cons h gs =>
      cases gs with
      | nil => exact congrArg (g :: ·) ih
      | cons => exact congrArg (g :: ·) ih

theorem pushAll_nil (gs : List (List Token)) : pushAll [] gs = gs := by
  induction gs with
  | nil => rfl
  | cons g gs ih =>
    cases gs with
    | nil => exact congrArg (fun g => [g]) (List.append_nil g)
    | cons h gs => exact congrArg (g :: ·) ih

theorem pushAll_sameName {gs hs : List (List Token)} (h : List.Forall₂ SameName gs hs)
    {xs ys : List Token} (hxy : ∀ g h, SameName g h → SameName (g ++ xs) (h ++ ys)) :
    List.Forall₂ SameName (pushAll xs gs) (pushAll ys hs) := by
  induction h with
  | nil => exact .nil
  | cons hgh hrest ih =>
    cases hrest with
    | nil => exact .cons (hxy _ _ hgh) .nil
    | cons hgh' hrest => exact .cons hgh ih

theorem argumentGroups_flat {xs : List Token} (h : ∀ t ∈ xs, t.IsFlat) (depth : Int)
    (gs : List (List Token)) (ts : List Token) :
    argumentGroups depth gs (xs ++ ts) =
      argumentGroups depth (if 1 ≤ depth then pushAll xs gs else gs) ts := by
  induction xs generalizing gs with
  | nil => rw [pushAll_nil, ite_self, List.nil_append]
  | cons t xs ih =>
    obtain ⟨ht, hxs⟩ := List.forall_mem_cons.1 h
    obtain ⟨hopener, hcloser, hcomma, -⟩ := ht.not_structure
    rw [List.cons_append, argumentGroups, hopener, hcloser, hcomma, Bool.and_false]
    simp only [Bool.false_eq_true, if_false]
    rw [ih hxs]
    split
    · rw [pushAll_pushLast]
    · rfl

/-- Either of the two may stand at the end of a header. -/
def Interchangeable (xs ys : List Token) : Prop :=
  ∀ depth gs hs, List.Forall₂ SameName gs hs →
    List.Forall₂ SameName (argumentGroups depth gs xs) (argumentGroups depth hs ys)

namespace Interchangeable

variable {xs ys : List Token}

theorem nil : Interchangeable [] [] := fun _ _ _ h => h

theorem cons {t u : Token} (htu : Alike t u) (h : Interchangeable xs ys) :
    Interchangeable (t :: xs) (u :: ys) := by
  intro depth gs hs hgs
  have hpush : List.Forall₂ SameName (pushLast t gs) (pushLast u hs) := by
    rw [← pushAll_singleton, ← pushAll_singleton]
    exact pushAll_sameName hgs fun g h hgh => hgh.append (.cons htu .nil)
  have hgroup : List.Forall₂ SameName (gs ++ [[]]) (hs ++ [[]]) :=
    List.rel_append hgs (.cons sameName_nil .nil)
  unfold argumentGroups
  rw [← htu.isOpener_eq, ← htu.isCloser_eq, ← htu.isPunct_eq, ← htu.isPunct_eq, ← htu.isPunct_eq]
  have hkept : ∀ {p : Prop} [Decidable p], List.Forall₂ SameName
      (if p then pushLast t gs else gs) (if p then pushLast u hs else hs) := by
    intro p _
    split
    · exact hpush
    · exact hgs
  split
  · split
    · exact h _ _ _ hgroup
    · exact h _ _ _ hkept
  · split
    · split
      · split
        · exact hgs
        · exact h _ _ _ hgs
      · exact h _ _ _ hkept
    · split
      · exact h _ _ _ hgroup
      · exact h _ _ _ hkept

theorem alike (h : List.Forall₂ Alike xs ys) : Interchangeable xs ys := by
  induction h with
  | nil => exact nil
  | cons htu _ ih => exact cons htu ih

theorem append {ts us : List Token} (htu : List.Forall₂ Alike ts us) (h : Interchangeable xs ys) :
    Interchangeable (ts ++ xs) (us ++ ys) := by
  induction htu with
  | nil => exact h
  | cons htu _ ih => exact cons htu ih

theorem statement {ts us : List Token} (hts : IsStatement ts) (hus : IsStatement us)
    (h : Interchangeable xs ys) : Interchangeable (ts ++ xs) (us ++ ys) := by
  intro depth gs hs hgs
  have hflat : ∀ {ts}, IsStatement ts → ∀ t ∈ ts, t.IsFlat := by
    rintro _ ⟨-, -, hflat⟩
    exact hflat
  rw [argumentGroups_flat (hflat hts), argumentGroups_flat (hflat hus)]
  apply h
  split
  · exact pushAll_sameName hgs fun g h hgh => hgh.append_statement hts hus
  · exact hgs

end Interchangeable

/-! ## Statements in a header -/

theorem isFlat_of_mem_scan {x : Text} (h : ∀ b ∈ x, Byte.isFlat b = true) (pos : Nat) :
    ∀ t ∈ scan pos x, t.IsFlat := by
  intro t ht b hb
  obtain ⟨before, after, heq, -⟩ := (Token.laid_scan pos x).exists_slice ht
  apply h
  rw [heq]
  exact List.mem_append_left after (List.mem_append_right before hb)

/-- A header without brackets has no arguments. -/
theorem sourceArgument?_flat {x : Text} (h : ∀ b ∈ x, Byte.isFlat b = true) :
    sourceArgument? x = none := by
  have hgroups := argumentGroups_flat (isFlat_of_mem_scan h 0) 0 [] []
  rw [List.append_nil] at hgroups
  rw [sourceArgument?_eq, hgroups]
  rfl

/-- The text is flat, and `self` and something behind it stand in front. -/
inductive IsStatementText : Text → Prop
  | intro {gap w : Text} {b : UInt8} (gaps : ∀ c ∈ gap, Byte.isGap c = true)
      (apart : ∀ c ∈ w.head?, Byte.isIdentPart c = false) (more : b ∈ w)
      (code : Byte.isGap b = false) (flat : ∀ c ∈ w, Byte.isFlat c = true) :
      IsStatementText (gap ++ (("self" : Text) ++ w))

namespace IsStatementText

variable {x : Text} (h : IsStatementText x)

include h

theorem isFlat : ∀ b ∈ x, Byte.isFlat b = true := by
  have hgap : ∀ {b}, Byte.isGap b = true → Byte.isFlat b = true := @(Byte.all (by decide))
  have hself : ∀ b ∈ ("self" : Text), Byte.isFlat b = true := List.all_eq_true.1 (by decide)
  obtain ⟨gaps, -, -, -, flat⟩ := h
  intro b hb
  rcases List.mem_append.1 hb with hb | hb
  · exact hgap (gaps b hb)
  · rcases List.mem_append.1 hb with hb | hb
    · exact hself b hb
    · exact flat b hb

theorem isCode : IsCode x := by
  have hcode : ∀ {b}, Byte.isFlat b = true → Byte.isQuote b = false ∧ b ≠ Byte.hash :=
    @(Byte.all (by decide))
  exact fun b hb => hcode (h.isFlat b hb)

theorem inert : Inert x := by
  have hinert : ∀ {b}, Byte.isFlat b = true → Byte.isQuote b = false ∧ b ≠ Byte.backslash :=
    @(Byte.all (by decide))
  exact fun b hb => hinert (h.isFlat b hb)

theorem not_endsLine (pos : Nat) : ∀ t ∈ scan pos x, ¬ t.endsLine := by
  rintro t ht (hkind | hkind) <;>
    rcases Token.kind_of_mem_scan h.isCode ht with h | h | h <;> rw [h] at hkind <;> cases hkind

theorem isStatement (pos : Nat) : IsStatement (scan pos x) := by
  have hflat := isFlat_of_mem_scan h.isFlat pos
  have hquote : ∀ {b}, Byte.isFlat b = true → Byte.isQuote b = false := @(Byte.all (by decide))
  have hname : Token.IsName ("self" : Text) :=
    ⟨115, [101, 108, 102], by decide, by decide, List.all_eq_true.1 (by decide)⟩
  obtain ⟨gaps, apart, more, code, flat⟩ := h
  rename_i gap w b
  rw [Token.scan_gaps pos gaps, Token.scan_name _ hname fun c hc =>
    ⟨apart c hc, hquote (flat c (List.mem_of_head? hc))⟩] at hflat ⊢
  cases hw : scan (pos + gap.length + ("self" : Text).length) w with
  | nil =>
    -- something that is no gap stands behind `self`
    have hlaid := Token.laid_scan (pos + gap.length + ("self" : Text).length) w
    rw [hw] at hlaid
    cases hlaid with
    | nil hgaps =>
      rw [hgaps b more] at code
      cases code
  | cons v ts =>
    rw [hw] at hflat
    exact .intro rfl rfl hflat

end IsStatementText

/-- **Where `self` copies fields in a header, it does not matter how.** -/
theorem sourceArgument?_between {x y : Text} (hx : IsStatementText x) (hy : IsStatementText y)
    (hlength : x.length = y.length) (front back : Text) :
    sourceArgument? (front ++ Byte.space :: (x ++ Byte.space :: back)) =
      sourceArgument? (front ++ Byte.space :: (y ++ Byte.space :: back)) := by
  rw [sourceArgument?_eq, sourceArgument?_eq]
  apply lastName?_congr
  suffices h : Interchangeable (scan 0 (front ++ Byte.space :: (x ++ Byte.space :: back)))
      (scan 0 (front ++ Byte.space :: (y ++ Byte.space :: back))) from h _ _ _ .nil
  by_cases hopen : ∃ t ∈ scan 0 front, t.endsLine
  · exact .alike (Token.alike_of_open hopen hx.inert hy.inert hlength _)
  · have hclosed : ∀ t ∈ scan 0 front, ¬ t.endsLine := fun t ht hend => hopen ⟨t, ht, hend⟩
    rw [Token.scan_space_of_closed hclosed, Token.scan_space_of_closed hclosed,
      Token.scan_space_of_closed (hx.not_endsLine _),
      Token.scan_space_of_closed (hy.not_endsLine _), hlength]
    refine .append (Token.alike_refl _) (.statement (hx.isStatement _) (hy.isStatement _) ?_)
    exact .alike (Token.alike_refl _)

end Lifecycle

end MojoLint
