import MojoLint.Proofs.Declaration.Parameters
import MojoLint.Proofs.Docstring.Verdict

/-!
# The arguments that a stub lists

A signature declares arguments one after the other, each perhaps behind stars and a word that says
how it is passed, and with a type and a default behind its name (`IsArguments`). The reader of a
signature takes the first identifier of each argument that is no such word. On a well-formed
signature that is its name (`IsArguments.argumentNames_eq`), unless the argument is named by one of
the words: these are never listed, and what the stub lists in their place stands in the type or the
default. So the stub lists the declared arguments exactly when none has such a name
(`stub_arguments_iff`).
-/

namespace MojoLint.Docstring

open Declaration (Bracket Nested Level IsItem allBrackets isConvention)
open Token (sign word)

/-! ## Signatures -/

/-- The stars in front of an argument that takes up several. -/
inductive IsStars : List Token → Prop
  | none : IsStars []
  | one (a : UInt32) : IsStars [sign "*" a]
  | two (a : UInt32) : IsStars [sign "**" a]

/-- The word that says how an argument is passed. -/
inductive IsPassing : List Token → Prop
  | none : IsPassing []
  | some {how : Text} (a : UInt32) (convention : isConvention how = true) : IsPassing [word how a]

/-- What may stand behind the name of an argument: a type, a default, or both. -/
inductive IsDetail : List Token → Prop
  | none : IsDetail []
  | type {ts : List Token} (a : UInt32) (rest : IsItem allBrackets ts) : IsDetail (sign ":" a :: ts)
  | default {ts : List Token} (a : UInt32) (rest : IsItem allBrackets ts) :
      IsDetail (sign "=" a :: ts)

/-- An item of an argument list and the argument that it declares. -/
inductive IsArgument : List Token → Option Text → Prop
  | slash (a : UInt32) : IsArgument [sign "/" a] none
  | star (a : UInt32) : IsArgument [sign "*" a] none
  | named {stars passing detail : List Token} (name : Text) (a : UInt32) (stars_form : IsStars stars)
      (passing_form : IsPassing passing) (detail_form : IsDetail detail) :
      IsArgument (stars ++ (passing ++ word name a :: detail)) (some name)

/-- An argument list, without its parentheses, and the arguments that it declares. A comma may stand
behind the last item. -/
inductive IsArguments : List Token → List Text → Prop
  | nil : IsArguments [] []
  | last {ts : List Token} {name : Option Text} (item : IsArgument ts name) :
      IsArguments ts name.toList
  | more {ts us : List Token} {name : Option Text} {names : List Text} (c : UInt32)
      (item : IsArgument ts name) (rest : IsArguments us names) :
      IsArguments (ts ++ sign "," c :: us) (name.toList ++ names)

/-- The declared arguments that call for a line: those other than `self`. -/
def described (names : List Text) : List Text := names.filter (· != "self")

/-- The compile-time parameters of a signature, when there are any. -/
inductive IsParameters : List Token → Prop
  | none : IsParameters []
  | some {ts : List Token} (a b : UInt32) (inner : Nested allBrackets ts) :
      IsParameters (sign "[" a :: (ts ++ [sign "]" b]))

/-- The tokens start with a signature of the function `name` that declares the arguments `names`. -/
inductive IsSignature (name : Text) (names : List Text) : List Token → Prop
  | intro {keyword : Text} {params list rest : List Token} (a b c d : UInt32)
      (keyword_form : keyword = "fn" ∨ keyword = "def") (parameters : IsParameters params)
      (arguments : IsArguments list names) :
      IsSignature name names (word keyword a :: word name b ::
        (params ++ sign "(" c :: (list ++ sign ")" d :: rest)))

/-! ## Reading a signature -/

/-- The part that a token plays for the reader of arguments. -/
theorem roles_of_plain {t : Token} (hopens : Block.opens t = false) (hcloses : Block.closes t = false) :
    (t.isOpener || t.isPunct "\x7b") = false ∧ (t.isCloser || t.isPunct "\x7d") = false :=
  ⟨hopens, hcloses⟩

theorem roles_of_group {o c : Text} (kind : (o, c) ∈ allBrackets) (a b : UInt32) :
    ((sign o a).isOpener || (sign o a).isPunct "\x7b") = true ∧
      ((sign c b).isOpener || (sign c b).isPunct "\x7b") = false ∧
      ((sign c b).isCloser || (sign c b).isPunct "\x7d") = true := by
  apply Declaration.of_allBrackets kind <;> exact ⟨rfl, rfl, rfl⟩

section

variable {ts us : List Token} {expecting : Bool}

/-- A group is passed over when its contents are. -/
theorem argumentNames_group {o c : Text} (kind : (o, c) ∈ allBrackets) (a b : UInt32) {d : Nat}
    (hinner : ∀ us, argumentNames (d + 2) expecting (ts ++ us) =
      argumentNames (d + 2) expecting us) :
    argumentNames (d + 1) expecting (sign o a :: (ts ++ sign c b :: us)) =
      argumentNames (d + 1) expecting us := by
  obtain ⟨hopen, hopen', hclose⟩ := roles_of_group kind a b
  have hne : ¬ d + 2 = 1 := by omega
  calc argumentNames (d + 1) expecting (sign o a :: (ts ++ sign c b :: us))
      = argumentNames (d + 2) expecting (ts ++ sign c b :: us) := by
        rw [argumentNames, if_pos hopen]
    _ = argumentNames (d + 2) expecting (sign c b :: us) := hinner _
    _ = argumentNames (d + 1) expecting us := by
        rw [argumentNames, hopen', if_neg Bool.false_ne_true, if_pos hclose, if_neg hne]
        rfl

/-- Inside inner brackets no name is read. -/
theorem Nested.argumentNames_inner (h : Nested allBrackets ts) (d : Nat) (us : List Token) :
    argumentNames (d + 2) expecting (ts ++ us) = argumentNames (d + 2) expecting us := by
  induction h generalizing d us with
  | nil => rfl
  | @plain t ts opens closes rest ih =>
    obtain ⟨hopen, hclose⟩ := roles_of_plain opens closes
    rw [List.cons_append, argumentNames, hopen, hclose, ← ih d us]
    simp
  | group kind a b inner rest ihinner ihrest =>
    rw [List.cons_append, List.append_assoc, List.cons_append,
      argumentNames_group kind a b fun us => ihinner (d + 1) us, ihrest]

/-- Behind its name no other name of an argument is read. -/
theorem IsItem.argumentNames_read (h : IsItem allBrackets ts) (us : List Token) :
    argumentNames 1 false (ts ++ us) = argumentNames 1 false us := by
  induction h generalizing us with
  | nil => rfl
  | @plain t ts opens closes holds rest ih =>
    obtain ⟨hopen, hclose⟩ := roles_of_plain opens closes
    have hcomma : t.isPunct "," = false := by simpa using holds
    rw [List.cons_append, argumentNames, hopen, hclose, hcomma, ← ih us]
    simp
  | group kind a b inner rest ih =>
    rw [List.cons_append, List.append_assoc, List.cons_append,
      argumentNames_group kind a b fun us => Nested.argumentNames_inner inner 0 us, ih]

end

section

variable {us : List Token}

theorem IsStars.argumentNames_eq {stars : List Token} (h : IsStars stars) :
    argumentNames 1 true (stars ++ us) = argumentNames 1 true us := by
  cases h <;> rfl

theorem argumentNames_word (name : Text) (a : UInt32) :
    argumentNames 1 true (word name a :: us) =
      if isConvention name then argumentNames 1 true us
      else
        (described [name] ++ (argumentNames 1 false us).1, (argumentNames 1 false us).2) := by
  have hread : argumentNames 1 true (word name a :: us) =
      if !isConvention name then
        (if name = "self" then (argumentNames 1 false us).1
          else name :: (argumentNames 1 false us).1, (argumentNames 1 false us).2)
      else argumentNames 1 true us := rfl
  rw [hread, described]
  cases isConvention name with
  | true => rfl
  | false => by_cases hself : name = "self" <;> simp [hself]

theorem IsPassing.argumentNames_eq {passing : List Token} (h : IsPassing passing) :
    argumentNames 1 true (passing ++ us) = argumentNames 1 true us := by
  cases h with
  | none => rfl
  | some a convention => rw [List.singleton_append, argumentNames_word, if_pos convention]

theorem IsDetail.argumentNames_eq {detail : List Token} (h : IsDetail detail) :
    argumentNames 1 false (detail ++ us) = argumentNames 1 false us := by
  cases h with
  | none => rfl
  | type a rest => exact IsItem.argumentNames_read rest us
  | default a rest => exact IsItem.argumentNames_read rest us

/-- An argument is listed in front of those that follow, whether a name is expected there or not. -/
theorem IsArgument.argumentNames_eq {ts : List Token} {name : Option Text} (h : IsArgument ts name)
    (hname : ∀ n ∈ name.toList, isConvention n = false) {later : List Text × List Token}
    (hlater : ∀ expecting, argumentNames 1 expecting us = later) :
    argumentNames 1 true (ts ++ us) = (described name.toList ++ later.1, later.2) := by
  cases h with
  | slash a => exact hlater true
  | star a => exact hlater true
  | named name a stars_form passing_form detail_form =>
    have hname : ¬ isConvention name = true := by simpa using hname
    rw [List.append_assoc, stars_form.argumentNames_eq, List.append_assoc,
      passing_form.argumentNames_eq, List.cons_append, argumentNames_word, if_neg hname,
      detail_form.argumentNames_eq, hlater]
    rfl

end

/-- **The arguments are listed one after the other**, when none is named by a word that says how an
argument is passed. -/
theorem IsArguments.argumentNames_eq {list : List Token} {names : List Text}
    (h : IsArguments list names) (hnames : ∀ n ∈ names, isConvention n = false) (d : UInt32)
    (rest : List Token) :
    argumentNames 1 true (list ++ sign ")" d :: rest) = (described names, rest) := by
  have hclose : ∀ expecting, argumentNames 1 expecting (sign ")" d :: rest) = ([], rest) :=
    fun _ => rfl
  induction h with
  | nil => exact hclose true
  | last item => rw [item.argumentNames_eq hnames hclose, List.append_nil]
  | @more ts us name names c item more ih =>
    obtain ⟨hname, hnames⟩ := List.forall_mem_append.1 hnames
    have hcomma : ∀ expecting, argumentNames 1 expecting
        (sign "," c :: (us ++ sign ")" d :: rest)) = (described names, rest) :=
      fun _ => ih hnames
    rw [List.append_assoc, List.cons_append, item.argumentNames_eq hname hcomma,
      described, described, described, List.filter_append]

/-- No word that says how an argument is passed is listed. -/
theorem isConvention_of_mem_argumentNames {depth : Nat} {expecting : Bool} {ts : List Token}
    {name : Text} (h : name ∈ (argumentNames depth expecting ts).1) : isConvention name = false := by
  induction ts generalizing depth expecting with
  | nil => cases h
  | cons t ts ih =>
    unfold argumentNames at h
    split at h
    · exact ih h
    · split at h
      · split at h
        · cases h
        · exact ih h
      · split at h
        · exact ih h
        · split at h
          · rename_i hread
            simp only [Bool.and_eq_true, Bool.not_eq_true'] at hread
            simp only at h
            split at h
            · exact ih h
            · rcases List.mem_cons.1 h with rfl | h
              · exact hread.2
              · exact ih h
          · exact ih h

/-- Properly nested tokens hold no bracket that closes the parameters. -/
theorem Nested.behind {ts : List Token} (h : Nested allBrackets ts) (d : Nat) (us : List Token) :
    Declaration.skipParameters.behind (d + 1) (ts ++ us) =
      Declaration.skipParameters.behind (d + 1) us := by
  induction h generalizing d us with
  | nil => rfl
  | @plain t ts opens closes rest ih =>
    obtain ⟨-, -, hsquare, hsquare'⟩ := Struct.Balanced.of_plain opens closes
    rw [List.cons_append, Declaration.skipParameters.behind, hsquare, hsquare', ih d us]
    simp
  | @group o c ts vs kind a b inner rest ihinner ihrest =>
    rw [List.cons_append, List.append_assoc, ← ihrest d us]
    apply Declaration.of_allBrackets kind
    · exact ihinner d (sign "\x7d" b :: (vs ++ us))
    · exact ihinner d (sign ")" b :: (vs ++ us))
    · exact ihinner (d + 1) (sign "]" b :: (vs ++ us))

/-- The argument list is found behind the parameters. -/
theorem IsParameters.skip_eq {params : List Token} (h : IsParameters params) (c : UInt32)
    (tail : List Token) :
    Declaration.skipParameters (params ++ sign "(" c :: tail) = sign "(" c :: tail := by
  cases h with
  | none => rfl
  | @some ts a b inner =>
    rw [List.cons_append, List.append_assoc]
    exact Nested.behind inner 0 (sign "]" b :: sign "(" c :: tail)

/-! ## Stubs -/

theorem IsSignature.isName {signature name : Text} {names : List Text}
    (h : IsSignature name names (Token.ofLine signature)) : Token.IsName name := by
  obtain ⟨b, hb⟩ : ∃ b, word name b ∈ Token.ofLine signature := by
    generalize Token.ofLine signature = ts at h
    cases h with
    | intro a b => exact ⟨b, List.mem_cons_of_mem _ List.mem_cons_self⟩
  exact Token.isName_of_mem_scan hb rfl

/-- What is read off a signature. -/
theorem IsSignature.ofTokens?_eq {name : Text} {names : List Text} {ts : List Token}
    (h : IsSignature name names ts) :
    ∃ s list d rest, Signature.ofTokens? ts = some s ∧ s.name = name ∧ IsArguments list names ∧
      s.arguments = (argumentNames 1 true (list ++ sign ")" d :: rest)).1 := by
  cases h with
  | @intro keyword params list rest a b c d keyword_form parameters arguments =>
    refine ⟨_, list, d, rest, rfl, rfl, arguments, ?_⟩
    simp only [parameters.skip_eq]
    rfl

/-- **A stub lists the declared arguments** in their order, without `self`, exactly when none of
them is named by a word that says how an argument is passed. No such name is ever listed. -/
theorem stub_arguments_iff {signature name : Text} {names : List Text} (indent : UInt32)
    (h : IsSignature name names (Token.ofLine signature)) :
    ∃ s : Signature, functionStub? signature indent = some (s.stub indent) ∧
      (s.stub indent).lines =
        (padding indent ++ (Delimiter.triple ++ ("TODO: Describe " ++ name ++ "."))) ::
          (argumentLines (padding indent) s.arguments ++ resultLines (padding indent) s.hasResult ++
            [padding indent ++ Delimiter.triple]) ∧
      (∀ n ∈ s.arguments, isConvention n = false) ∧
      (s.arguments = described names ↔ ∀ n ∈ names, isConvention n = false) := by
  obtain ⟨s, list, d, rest, hread, hname, harguments, heq⟩ := h.ofTokens?_eq
  have hlisted : ∀ n ∈ s.arguments, isConvention n = false := fun n hn =>
    isConvention_of_mem_argumentNames (heq ▸ hn)
  have hlines : (s.stub indent).lines = s.stubLines indent := by
    refine Signature.lines_stub indent (hname ▸ h.isName) ?_
    exact Signature.isName_of_mem_arguments hread fun t ht hkind =>
      Token.isName_of_mem_scan ht hkind
  refine ⟨s, by rw [functionStub?, hread]; rfl, ?_, hlisted, ?_, ?_⟩
  · rw [hlines, Signature.stubLines, Signature.phrase, hname, Signature.sectionLines]
  · intro hsame n hn
    by_cases hself : n = "self"
    · rw [hself]
      decide +kernel
    · exact hlisted n (hsame ▸ List.mem_filter.2 ⟨hn, by simpa using hself⟩)
  · intro hnames
    rw [heq, harguments.argumentNames_eq hnames]

/-- A signature with parameters, a bracket inside a type, a star and a result. -/
theorem stub_arguments_iff_method :
    let signature : Text := "def put[T](mut self, x: Dict[Int, T], *rest) -> T:"
    IsSignature "put" ["self", "x", "rest"] (Token.ofLine signature) ∧
      ∃ s : Signature, functionStub? signature 4 = some (s.stub 4) ∧
        s.arguments = (["x", "rest"] : List Text) := by
  repeat rw [Text.ofString_ofList]
  intro signature
  have htokens : Token.ofLine signature = word "def" 0 :: word "put" 4 ::
      ((sign "[" 7 :: ([word "T" 8] ++ [sign "]" 9])) ++ sign "(" 10 ::
        ((([] ++ ([word "mut" 11] ++ word "self" 15 :: [])) ++ sign "," 19 ::
          (([] ++ ([] ++ word "x" 21 :: sign ":" 22 :: word "Dict" 24 ::
            (sign "[" 28 :: ([word "Int" 29, sign "," 32, word "T" 34] ++ sign "]" 35 :: [])))) ++
              sign "," 36 :: ([sign "*" 38] ++ ([] ++ word "rest" 39 :: [])))) ++
          sign ")" 43 :: [sign "->" 45, word "T" 48, sign ":" 49])) := by
    decide +kernel
  have hsquare : (Text.ofString "[", Text.ofString "]") ∈ allBrackets := by decide +kernel
  have htype : IsItem allBrackets (word "Dict" 24 ::
      (sign "[" 28 :: ([word "Int" 29, sign "," 32, word "T" 34] ++ sign "]" 35 :: []))) := by
    refine .plain rfl rfl rfl (.group hsquare 28 35 ?_ .nil)
    exact .plain rfl rfl (.plain rfl rfl (.plain rfl rfl .nil))
  have hform : IsSignature "put" ["self", "x", "rest"] (Token.ofLine signature) := by
    rw [htokens]
    refine .intro 0 4 10 43 (.inr rfl) (.some 7 9 (.plain rfl rfl .nil)) ?_
    refine .more 19 (.named "self" 15 .none (.some 11 (by decide +kernel)) .none) ?_
    refine .more 36 (.named "x" 21 .none .none (.type 22 htype)) ?_
    exact .last (.named "rest" 39 (.one 38) .none .none)
  obtain ⟨s, hstub, -, -, hlisted⟩ := stub_arguments_iff 4 hform
  refine ⟨hform, s, hstub, ?_⟩
  exact hlisted.2 (by decide +kernel)

/-- An argument named `out`: the stub lists its type instead. -/
theorem stub_of_out :
    let signature : Text := "fn kernel(out: UnsafePointer[Float32]):"
    IsSignature "kernel" ["out"] (Token.ofLine signature) ∧
      functionStub? signature 4 = some
        "    \"\"\"TODO: Describe kernel.\n\n    Args:\n        UnsafePointer: TODO.\n    \"\"\"\n" := by
  repeat rw [Text.ofString_ofList]
  intro signature
  have htokens : Token.ofLine signature = word "fn" 0 :: word "kernel" 3 ::
      ([] ++ sign "(" 9 :: (([] ++ ([] ++ word "out" 10 :: sign ":" 13 :: word "UnsafePointer" 15 ::
        (sign "[" 28 :: ([word "Float32" 29] ++ sign "]" 36 :: [])))) ++
          sign ")" 37 :: [sign ":" 38])) := by
    decide +kernel
  have hsquare : (Text.ofString "[", Text.ofString "]") ∈ allBrackets := by decide +kernel
  have htype : IsItem allBrackets (word "UnsafePointer" 15 ::
      (sign "[" 28 :: ([word "Float32" 29] ++ sign "]" 36 :: []))) :=
    .plain rfl rfl rfl (.group hsquare 28 36 (.plain rfl rfl .nil) .nil)
  constructor
  · rw [htokens]
    exact .intro 0 3 9 37 (.inl rfl) .none (.last (.named "out" 10 .none .none (.type 13 htype)))
  · decide +kernel

end MojoLint.Docstring
