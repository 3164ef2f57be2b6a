import MojoLint.Proofs.Lifecycle.SourceArgument
import MojoLint.Proofs.Traits.Grammar

/-!
# The source argument of a well-formed initialiser

The header of an initialiser declares its source last, perhaps behind words that say how it is
passed, and with a type. The reader splits the arguments at the commas outside inner brackets: what
is properly nested inside a bracket may start groups of its own, but it never loses one
(`Paired.exists_passes`), and the argument that declares the source stays in one group
(`Declares.goesOn`). So the reader finds the name behind any compile-time parameters and any other
arguments, except that a comma behind the last argument starts an empty group, which declares
nothing (`sourceArgument_eq_iff`).
-/

namespace MojoLint.Lifecycle

open Declaration (isConvention pushLast)
open Token (sign word)

/-! ## Headers -/

/-- The parentheses and square brackets among the tokens are properly nested. To the reader braces
are tokens like any other. -/
inductive Paired : List Token → Prop
  | nil : Paired []
  | plain {t : Token} {ts : List Token} (opener : t.isOpener = false) (closer : t.isCloser = false)
      (rest : Paired ts) : Paired (t :: ts)
  | group {o c : Text} {ts us : List Token} (kind : (o, c) ∈ Struct.brackets) (a b : UInt32)
      (inner : Paired ts) (rest : Paired us) : Paired (sign o a :: (ts ++ sign c b :: us))

/-- A type: properly nested, with all its commas in brackets. -/
inductive IsType : List Token → Prop
  | nil : IsType []
  | plain {t : Token} {ts : List Token} (opener : t.isOpener = false) (closer : t.isCloser = false)
      (comma : t.isPunct "," = false) (rest : IsType ts) : IsType (t :: ts)
  | group {o c : Text} {ts us : List Token} (kind : (o, c) ∈ Struct.brackets) (a b : UInt32)
      (inner : Paired ts) (rest : IsType us) : IsType (sign o a :: (ts ++ sign c b :: us))

/-- Words that say how an argument is passed. -/
inductive IsPassing : List Token → Prop
  | nil : IsPassing []
  | cons {how : Text} {ts : List Token} (a : UInt32) (convention : isConvention how = true)
      (rest : IsPassing ts) : IsPassing (word how a :: ts)

/-- An argument that declares the name. -/
inductive Declares (name : Text) : List Token → Prop
  | intro {passing type : List Token} (a b : UInt32) (passing_form : IsPassing passing)
      (free : isConvention name = false) (type_form : IsType type) :
      Declares name (passing ++ word name a :: sign ":" b :: type)

/-- The compile-time parameters of a method, when there are any. -/
inductive IsParameters : List Token → Prop
  | none : IsParameters []
  | some {ts : List Token} (a b : UInt32) (inner : Paired ts) :
      IsParameters (sign "[" a :: (ts ++ [sign "]" b]))

/-- What may stand between the last argument and the closing parenthesis. -/
inductive IsTrailing : Bool → List Token → Prop
  | none : IsTrailing false []
  | comma (a : UInt32) : IsTrailing true [sign "," a]

/-- The tokens start with the header of a method whose last argument declares the name. In front of
it stand one or more others, with commas between them. -/
inductive IsInitialiser (name : Text) (trailing : Bool) : List Token → Prop
  | intro {method : Text} {params others last comma rest : List Token} (a b c d e : UInt32)
      (parameters : IsParameters params) (others_form : Paired others) (source : Declares name last)
      (trailing_form : IsTrailing trailing comma) :
      IsInitialiser name trailing (word "fn" a :: word method b :: (params ++ sign "(" c ::
        (others ++ sign "," d :: (last ++ (comma ++ sign ")" e :: rest)))))

/-! ## Splitting a header -/

/-- The reader passes over the tokens, which leave as many brackets open as before, and has then
read the groups `hs`. -/
def Passes (depth : Int) (gs : List (List Token)) (ts : List Token) (hs : List (List Token)) :
    Prop :=
  ∀ us, argumentGroups depth gs (ts ++ us) = argumentGroups depth hs us

theorem length_pushLast (t : Token) (gs : List (List Token)) :
    (pushLast t gs).length = gs.length := by
  induction gs with
  | nil => rfl
  | cons g gs ih =>
    cases gs with
    | nil => rfl
    | cons h gs => exact congrArg (· + 1) ih

theorem pushAll_append (xs ys : List Token) (gs : List (List Token)) :
    pushAll (xs ++ ys) gs = pushAll ys (pushAll xs gs) := by
  induction xs generalizing gs with
  | nil => rw [List.nil_append, pushAll_nil]
  | cons x xs ih => rw [List.cons_append, ← pushAll_pushLast, ih, pushAll_pushLast]

theorem pushAll_concat (xs : List Token) (gs : List (List Token)) (g : List Token) :
    pushAll xs (gs ++ [g]) = gs ++ [g ++ xs] := by
  induction gs with
  | nil => rfl
  | cons h gs ih =>
    cases gs with
    | nil => rfl
    | cons => exact congrArg (h :: ·) ih

section

variable {depth : Int} {gs hs ks : List (List Token)} {ts us : List Token}

theorem Passes.nil : Passes depth gs [] gs := fun _ => rfl

theorem Passes.append (hts : Passes depth gs ts hs) (hus : Passes depth hs us ks) :
    Passes depth gs (ts ++ us) ks := by
  intro vs
  rw [List.append_assoc, hts, hus]

theorem passes_plain {t : Token} (hdepth : 1 ≤ depth) (hopener : t.isOpener = false)
    (hcloser : t.isCloser = false) :
    Passes depth gs [t] (if depth = 1 && t.isPunct "," then gs ++ [[]] else pushLast t gs) := by
  intro us
  rw [List.singleton_append, argumentGroups, hopener, hcloser, if_neg Bool.false_ne_true,
    if_neg Bool.false_ne_true, if_pos hdepth, apply_ite (argumentGroups depth · us)]

/-- A group is passed over when its contents are. -/
theorem passes_group {o c : Text} (kind : (o, c) ∈ Struct.brackets) (a b : UInt32)
    (hdepth : 1 ≤ depth) (hinner : Passes (depth + 1) (pushLast (sign o a) gs) ts hs) :
    Passes depth gs (sign o a :: (ts ++ [sign c b])) (pushLast (sign c b) hs) := by
  have hopen : (sign o a).isOpener = true := by apply Struct.of_brackets kind <;> rfl
  have hclose : (sign c b).isOpener = false ∧ (sign c b).isCloser = true := by
    apply Struct.of_brackets kind <;> exact ⟨rfl, rfl⟩
  have hne : ¬ depth = 0 := by omega
  have hne' : ¬ depth + 1 = 1 := by omega
  intro us
  calc argumentGroups depth gs (sign o a :: (ts ++ [sign c b]) ++ us)
      = argumentGroups depth gs (sign o a :: (ts ++ sign c b :: us)) := by
        rw [List.cons_append, List.append_assoc, List.singleton_append]
    _ = argumentGroups (depth + 1) (pushLast (sign o a) gs) (ts ++ sign c b :: us) := by
        simp [argumentGroups, hopen, hne, show 0 ≤ depth by omega]
    _ = argumentGroups (depth + 1) hs (sign c b :: us) := hinner _
    _ = argumentGroups depth (pushLast (sign c b) hs) us := by
        simp [argumentGroups, hclose, hne', show 2 ≤ depth + 1 by omega]

/-- **Inside brackets no group is lost.** -/
theorem Paired.exists_passes (h : Paired ts) (hdepth : 1 ≤ depth) (gs : List (List Token)) :
    ∃ hs, gs.length ≤ hs.length ∧ Passes depth gs ts hs := by
  induction h generalizing depth gs with
  | nil => exact ⟨gs, Nat.le_refl _, .nil⟩
  | @plain t ts opener closer rest ih =>
    obtain ⟨hs, hle, hpass⟩ :=
      ih hdepth (if depth = 1 && t.isPunct "," then gs ++ [[]] else pushLast t gs)
    refine ⟨hs, Nat.le_trans ?_ hle, (passes_plain hdepth opener closer).append hpass⟩
    split
    · rw [List.length_append]
      exact Nat.le_add_right _ _
    · exact Nat.le_of_eq (length_pushLast t gs).symm
  | @group o c ts us kind a b inner rest ihinner ihrest =>
    obtain ⟨hs, hle, hpass⟩ := ihinner (show 1 ≤ depth + 1 by omega) (pushLast (sign o a) gs)
    obtain ⟨ks, hle', hpass'⟩ := ihrest hdepth (pushLast (sign c b) hs)
    rw [length_pushLast] at hle hle'
    have hgroup := (passes_group kind a b hdepth hpass).append hpass'
    exact ⟨ks, Nat.le_trans hle hle', by simpa using hgroup⟩

/-- The tokens go on with the argument that is being read. -/
def GoesOn (depth : Int) (ts : List Token) : Prop := ∀ gs, Passes depth gs ts (pushAll ts gs)

theorem GoesOn.nil : GoesOn depth [] := by
  intro gs
  rw [pushAll_nil]
  exact .nil

theorem GoesOn.plain {t : Token} (hdepth : 1 ≤ depth) (hopener : t.isOpener = false)
    (hcloser : t.isCloser = false) (hcomma : depth = 1 → t.isPunct "," = false)
    (h : GoesOn depth ts) : GoesOn depth (t :: ts) := by
  intro gs
  have hpush : Passes depth gs [t] _ := passes_plain hdepth hopener hcloser
  rw [if_neg (by simpa using hcomma)] at hpush
  rw [← pushAll_pushLast]
  exact hpush.append (h _)

theorem GoesOn.group {o c : Text} (kind : (o, c) ∈ Struct.brackets) (a b : UInt32)
    (hdepth : 1 ≤ depth) (hinner : GoesOn (depth + 1) ts) (h : GoesOn depth us) :
    GoesOn depth (sign o a :: (ts ++ sign c b :: us)) := by
  intro gs
  have hgroup := passes_group kind a b hdepth (hinner (pushLast (sign o a) gs))
  rw [← pushAll_pushLast, pushAll_append, ← pushAll_pushLast]
  simpa using hgroup.append (h _)

/-- What stands in inner brackets goes on with the argument, commas included. -/
theorem Paired.goesOn (h : Paired ts) (hdepth : 2 ≤ depth) : GoesOn depth ts := by
  induction h generalizing depth with
  | nil => exact .nil
  | plain opener closer rest ih =>
    exact (ih hdepth).plain (by omega) opener closer (by omega)
  | group kind a b inner rest ihinner ihrest =>
    exact .group kind a b (by omega) (ihinner (by omega)) (ihrest hdepth)

theorem IsType.goesOn (h : IsType ts) : GoesOn 1 ts := by
  induction h with
  | nil => exact .nil
  | plain opener closer comma rest ih => exact ih.plain (by decide) opener closer fun _ => comma
  | group kind a b inner rest ih => exact .group kind a b (by decide) (inner.goesOn (by decide)) ih

theorem IsPassing.goesOn (h : IsPassing ts) (hus : GoesOn 1 us) : GoesOn 1 (ts ++ us) := by
  induction h with
  | nil => exact hus
  | cons a convention rest ih => exact ih.plain (by decide) rfl rfl fun _ => rfl

/-- An argument that declares a name is one group. -/
theorem Declares.goesOn {name : Text} (h : Declares name ts) : GoesOn 1 ts := by
  obtain ⟨a, b, passing_form, free, type_form⟩ := h
  refine passing_form.goesOn (.plain (by decide) rfl rfl (fun _ => rfl) ?_)
  exact .plain (by decide) rfl rfl (fun _ => rfl) type_form.goesOn

end

/-- The name is found behind the words in front of it. -/
theorem Declares.declaredName?_eq {name : Text} {ts : List Token} (h : Declares name ts) :
    declaredName? ts = some name := by
  obtain ⟨a, b, passing_form, free, type_form⟩ := h
  rename_i passing type
  induction passing_form with
  | nil =>
    have hfound : ((word name a).kind == .ident && !isConvention (word name a).text) = true := by
      rw [word, free]
      rfl
    exact if_pos hfound
  | @cons how ts d convention rest ih =>
    obtain ⟨t, us, heq⟩ : ∃ t us, ts ++ word name a :: sign ":" b :: type = t :: us := by
      cases ts with
      | nil => exact ⟨_, _, rfl⟩
      | cons => exact ⟨_, _, rfl⟩
    rw [heq] at ih
    have hpassed : ((word how d).kind == .ident && !isConvention (word how d).text) = false := by
      rw [word, convention]
      rfl
    rw [List.cons_append, heq, declaredName?, hpassed, if_neg Bool.false_ne_true, ih]

/-- The last of several groups declares the name. -/
theorem lastName?_concat {gs : List (List Token)} (hgs : gs ≠ []) (g : List Token) :
    lastName? (gs ++ [g]) = declaredName? g := by
  obtain ⟨h, gs, rfl⟩ := List.exists_cons_of_ne_nil hgs
  cases gs with
  | nil => rfl
  | cons k gs =>
    rw [List.cons_append, List.cons_append, lastName?, ← List.cons_append, List.getLastD_concat]

/-- What the reader takes from the compile-time parameters counts for nothing. -/
theorem IsParameters.exists_groups {params : List Token} (h : IsParameters params) :
    ∃ gs, ∀ us, argumentGroups 0 [] (params ++ us) = argumentGroups 0 gs us := by
  cases h with
  | none => exact ⟨[], fun _ => rfl⟩
  | @some ts a b inner =>
    obtain ⟨gs, -, hpass⟩ := inner.exists_passes (Int.le_refl 1) []
    refine ⟨gs, fun us => ?_⟩
    rw [List.cons_append, List.append_assoc]
    exact hpass (sign "]" b :: us)

/-- **The reader finds the name that the last argument declares**, unless a comma follows it. -/
theorem sourceArgument?_eq_ite {name header : Text} {trailing : Bool}
    (h : IsInitialiser name trailing (Token.ofLine header)) :
    sourceArgument? header = if trailing then none else some name := by
  rw [sourceArgument?_eq, ← Token.ofLine]
  generalize Token.ofLine header = tokens at h
  obtain ⟨a, b, c, d, e, parameters, others_form, source, trailing_form⟩ := h
  rename_i method params others last comma rest
  obtain ⟨gs, hparams⟩ := parameters.exists_groups
  obtain ⟨hs, hle, hothers⟩ :=
    others_form.exists_passes (Int.le_refl 1) (gs ++ [[]])
  have hsome : hs ≠ [] := by
    rintro rfl
    simp at hle
  have hgroups : argumentGroups 0 [] (word "fn" a :: word method b :: (params ++ sign "(" c ::
      (others ++ sign "," d :: (last ++ (comma ++ sign ")" e :: rest))))) =
      argumentGroups 1 (hs ++ [last]) (comma ++ sign ")" e :: rest) := by
    calc argumentGroups 0 [] (word "fn" a :: word method b :: (params ++ sign "(" c ::
          (others ++ sign "," d :: (last ++ (comma ++ sign ")" e :: rest)))))
        = argumentGroups 0 gs (sign "(" c ::
            (others ++ sign "," d :: (last ++ (comma ++ sign ")" e :: rest)))) := hparams _
      _ = argumentGroups 1 hs (sign "," d :: (last ++ (comma ++ sign ")" e :: rest))) := hothers _
      _ = argumentGroups 1 (pushAll last (hs ++ [[]])) (comma ++ sign ")" e :: rest) :=
          source.goesOn _ _
      _ = argumentGroups 1 (hs ++ [last]) (comma ++ sign ")" e :: rest) := by
          rw [pushAll_concat, List.nil_append]
  rw [hgroups]
  cases trailing_form with
  | none => exact (lastName?_concat hsome last).trans source.declaredName?_eq
  | comma => exact lastName?_concat (List.append_ne_nil_of_left_ne_nil hsome _) []

/-- **The source argument is the one that the last argument declares** exactly when no comma follows
it, or when it has the name that an unreadable header is taken to give. -/
theorem sourceArgument_eq_iff {name header : Text} {trailing : Bool}
    (h : IsInitialiser name trailing (Token.ofLine header)) :
    sourceArgument header = name ↔ trailing = false ∨ name = "existing" := by
  rw [sourceArgument, sourceArgument?_eq_ite h]
  cases trailing with
  | false => simp
  | true => simp [eq_comm]

/-- Commas in the compile-time parameters, in a default in front of the source and in its type. -/
theorem sourceArgument_eq_iff_move :
    let header : Text :=
      "fn __moveinit__[T: A, n: Int](out self, k: T = {1, 2}, owned var o: Foo[T, (n)]):"
    IsInitialiser "o" false (Token.ofLine header) ∧ sourceArgument header = "o" := by
  repeat rw [Text.ofString_ofList]
  intro header
  have htokens : Token.ofLine header = word "fn" 0 :: word "__moveinit__" 3 ::
      ((sign "[" 15 :: ([word "T" 16, sign ":" 17, word "A" 19, sign "," 20, word "n" 22,
          sign ":" 23, word "Int" 25] ++ [sign "]" 28])) ++ sign "(" 29 ::
        ([word "out" 30, word "self" 34, sign "," 38, word "k" 40, sign ":" 41, word "T" 43,
            sign "=" 45, sign "\x7b" 47, ⟨.number, "1", 48⟩, sign "," 49, ⟨.number, "2", 51⟩,
            sign "\x7d" 52] ++
          sign "," 53 :: (([word "owned" 55, word "var" 61] ++ word "o" 65 :: sign ":" 66 ::
            word "Foo" 68 :: sign "[" 71 :: ((word "T" 72 :: sign "," 73 :: sign "(" 75 ::
              ([word "n" 76] ++ sign ")" 77 :: [])) ++ sign "]" 78 :: [])) ++
            ([] ++ sign ")" 79 :: [sign ":" 80])))) := by
    decide +kernel
  have hkinds : (Text.ofString "(", Text.ofString ")") ∈ Struct.brackets ∧
      (Text.ofString "[", Text.ofString "]") ∈ Struct.brackets := by
    decide +kernel
  have htype : IsType (word "Foo" 68 :: sign "[" 71 :: ((word "T" 72 :: sign "," 73 ::
      sign "(" 75 :: ([word "n" 76] ++ sign ")" 77 :: [])) ++ sign "]" 78 :: [])) := by
    refine .plain rfl rfl rfl (.group hkinds.2 71 78 ?_ .nil)
    exact .plain rfl rfl (.plain rfl rfl (.group hkinds.1 75 77 (.plain rfl rfl .nil) .nil))
  have hform : IsInitialiser "o" false (Token.ofLine header) := by
    rw [htokens]
    refine .intro 0 3 29 53 79 (.some 15 28 ?_) ?_ ?_ .none
    · repeat refine .plain rfl rfl ?_
      exact .nil
    · repeat refine .plain rfl rfl ?_
      exact .nil
    · refine .intro 65 66 (.cons 55 ?_ (.cons 61 ?_ .nil)) ?_ htype <;> decide +kernel
  exact ⟨hform, (sourceArgument_eq_iff hform).2 (.inl rfl)⟩

/-- A comma behind the source: its name is not read. -/
theorem sourceArgument_of_trailing :
    let header : Text := "fn __copyinit__(out self, other: Self,):"
    IsInitialiser "other" true (Token.ofLine header) ∧ sourceArgument header = "existing" := by
  repeat rw [Text.ofString_ofList]
  intro header
  have htokens : Token.ofLine header = word "fn" 0 :: word "__copyinit__" 3 ::
      ([] ++ sign "(" 15 :: ([word "out" 16, word "self" 20] ++ sign "," 24 ::
        (([] ++ word "other" 26 :: sign ":" 31 :: [word "Self" 33]) ++
          ([sign "," 37] ++ sign ")" 38 :: [sign ":" 39])))) := by
    decide +kernel
  constructor
  · rw [htokens]
    refine .intro 0 3 15 24 38 .none (.plain rfl rfl (.plain rfl rfl .nil)) ?_ (.comma 37)
    exact .intro 26 31 .nil (by decide +kernel) (.plain rfl rfl rfl .nil)
  · decide +kernel

end MojoLint.Lifecycle
