import MojoLint.Proofs.Declaration.Parameters
import MojoLint.Proofs.Source.Rows
import MojoLint.Rule.Memory

/-!
# Leaks of owned pointers

The parameters of a header are split off by a walk that counts brackets. On a properly nested header
it finds what stands between the commas of the first parentheses outside all square brackets
(`HasParameters.parameters_eq`), however the types and defaults of the parameters are nested. A
function is then reported once for every parameter that starts with `owned` and names the pointer
type, and for no other one, unless its body is a kernel or frees memory (`leaks_exact`).
-/

namespace MojoLint.Rule.Memory

open Declaration (Bracket Nested Level IsItem Items pushLast)
open Struct (brackets)
open Token (sign)

/-! ## Splitting a header -/

/-- The header has these parameters: the items of the first parentheses that stand outside all
brackets, none when there are no such parentheses. What follows the parentheses is free. -/
inductive HasParameters : List Token → List (List Token) → Prop
  | found {front inner : List Token} {params : List (List Token)} (a b : UInt32)
      (rest : List Token) (before : Level brackets [("[", "]")] (fun _ => true) front)
      (items : Items brackets inner params) :
      HasParameters (front ++ sign "(" a :: (inner ++ sign ")" b :: rest)) params
  | absent {ts : List Token} (tokens : Level brackets [("[", "]")] (fun _ => true) ts) :
      HasParameters ts []

theorem pushLast_concat (t : Token) (groups : List (List Token)) (g : List Token) :
    pushLast t (groups ++ [g]) = groups ++ [g ++ [t]] := by
  induction groups with
  | nil => rfl
  | cons h groups ih =>
    cases groups with
    | nil => rfl
    | cons => exact congrArg (h :: ·) ih

theorem roles_of_brackets {o c : Text} (h : (o, c) ∈ brackets) (a b : UInt32) :
    (sign o a).isOpener = true ∧ (sign c b).isOpener = false ∧ (sign c b).isCloser = true := by
  apply Struct.of_brackets h <;> exact ⟨rfl, rfl, rfl⟩

section

variable {ts : List Token} {depth : Int}

/-- Inside brackets no parameters start. -/
theorem Nested.parameters_none (h : Nested brackets ts) (hdepth : 0 < depth) (us : List Token) :
    parameters depth none (ts ++ us) = parameters depth none us := by
  induction h generalizing depth us with
  | nil => rfl
  | @plain t ts opens closes rest ih =>
    obtain ⟨hopener, hcloser, -, -⟩ := Struct.Balanced.of_plain opens closes
    rw [List.cons_append, parameters, hopener, hcloser]
    exact ih hdepth us
  | @group o c ts vs kind a b inner rest ihinner ihrest =>
    obtain ⟨hopen, hopen', hclose⟩ := roles_of_brackets kind a b
    have hstart : parameters depth none (sign o a :: (ts ++ sign c b :: (vs ++ us))) =
        parameters (depth + 1) none (ts ++ sign c b :: (vs ++ us)) := by
      have hne : ¬ depth = 0 := by omega
      simp [parameters, hopen, hne]
    have hstop : parameters (depth + 1) none (sign c b :: (vs ++ us)) =
        parameters depth none (vs ++ us) := by
      simp [parameters, hopen', hclose]
    rw [List.cons_append, List.append_assoc, List.cons_append, hstart, ihinner (by omega), hstop,
      ihrest hdepth]

/-- Nor do they in front of the first parentheses. -/
theorem Level.parameters_none (h : Level brackets [("[", "]")] (fun _ => true) ts)
    (us : List Token) : parameters 0 none (ts ++ us) = parameters 0 none us := by
  induction h generalizing us with
  | nil => rfl
  | plain opens closes holds rest ih =>
    obtain ⟨hopener, hcloser, -, -⟩ := Struct.Balanced.of_plain opens closes
    rw [List.cons_append, parameters, hopener, hcloser]
    exact ih us
  | @group o c ts vs kind a b inner rest ih =>
    cases List.mem_singleton.1 kind
    have hstart : parameters 0 none (sign "[" a :: (ts ++ sign "]" b :: (vs ++ us))) =
        parameters 1 none (ts ++ sign "]" b :: (vs ++ us)) := rfl
    have hstop : parameters 1 none (sign "]" b :: (vs ++ us)) = parameters 0 none (vs ++ us) := rfl
    rw [List.cons_append, List.append_assoc, List.cons_append, hstart,
      Nested.parameters_none inner (by decide), hstop, ih]

theorem parameters_push {t : Token} (hopens : Block.opens t = false)
    (hcloses : Block.closes t = false) (hcomma : depth = 1 → t.isPunct "," = false)
    (params : List (List Token)) (g us : List Token) :
    parameters depth (some (params ++ [g])) (t :: us) =
      parameters depth (some (params ++ [g ++ [t]])) us := by
  obtain ⟨hopener, hcloser, -, -⟩ := Struct.Balanced.of_plain hopens hcloses
  have hseparates : (decide (depth = 1) && t.isPunct ",") = false := by
    rw [Bool.and_eq_false_imp, decide_eq_true_iff]
    exact hcomma
  rw [parameters]
  simp only [hopener, hcloser, hseparates, Bool.false_eq_true, if_false, pushLast_concat]

/-- A group is passed over as a part of its parameter when its contents are. -/
theorem parameters_group {o c : Text} (kind : (o, c) ∈ brackets) (a b : UInt32)
    (hdepth : 0 < depth) {params : List (List Token)}
    (hinner : ∀ g us, parameters (depth + 1) (some (params ++ [g])) (ts ++ us) =
      parameters (depth + 1) (some (params ++ [g ++ ts])) us) (g us : List Token) :
    parameters depth (some (params ++ [g])) (sign o a :: (ts ++ sign c b :: us)) =
      parameters depth (some (params ++ [g ++ sign o a :: (ts ++ [sign c b])])) us := by
  obtain ⟨hopen, hopen', hclose⟩ := roles_of_brackets kind a b
  have hne : ¬ depth + 1 = 1 := by omega
  calc parameters depth (some (params ++ [g])) (sign o a :: (ts ++ sign c b :: us))
      = parameters (depth + 1) (some (params ++ [g ++ [sign o a]])) (ts ++ sign c b :: us) := by
        simp [parameters, hopen, pushLast_concat]
    _ = parameters (depth + 1) (some (params ++ [g ++ [sign o a] ++ ts])) (sign c b :: us) :=
        hinner _ _
    _ = parameters depth (some (params ++ [g ++ [sign o a] ++ ts ++ [sign c b]])) us := by
        simp [parameters, hopen', hclose, hne, pushLast_concat]
    _ = parameters depth (some (params ++ [g ++ sign o a :: (ts ++ [sign c b])])) us := by
        rw [List.append_assoc, List.append_assoc]
        rfl

/-- What stands in inner brackets goes on with the parameter, commas included. -/
theorem Nested.parameters_some (h : Nested brackets ts) (hdepth : 1 < depth)
    (params : List (List Token)) (g us : List Token) :
    parameters depth (some (params ++ [g])) (ts ++ us) =
      parameters depth (some (params ++ [g ++ ts])) us := by
  induction h generalizing depth g us with
  | nil => rw [List.append_nil, List.nil_append]
  | plain opens closes rest ih =>
    rw [List.cons_append, parameters_push opens closes (by omega), ih hdepth, List.append_assoc,
      List.singleton_append]
  | group kind a b inner rest ihinner ihrest =>
    rw [List.cons_append, List.append_assoc, List.cons_append,
      parameters_group kind a b (by omega) (ihinner (by omega)), ihrest hdepth]
    simp

/-- A parameter is read up to the comma or the parenthesis behind it. -/
theorem IsItem.parameters_some (h : IsItem brackets ts) (params : List (List Token))
    (g us : List Token) :
    parameters 1 (some (params ++ [g])) (ts ++ us) =
      parameters 1 (some (params ++ [g ++ ts])) us := by
  induction h generalizing g us with
  | nil => rw [List.append_nil, List.nil_append]
  | plain opens closes holds rest ih =>
    rw [List.cons_append, parameters_push opens closes fun _ => by simpa using holds, ih,
      List.append_assoc, List.singleton_append]
  | group kind a b inner rest ih =>
    rw [List.cons_append, List.append_assoc, List.cons_append,
      parameters_group kind a b (by decide) (Nested.parameters_some inner (by decide) params), ih]
    simp

/-- The items of the list are the parameters. -/
theorem Items.parameters_some {items : List (List Token)} (h : Items brackets ts items)
    (params : List (List Token)) (b : UInt32) (rest : List Token) :
    parameters 1 (some (params ++ [[]])) (ts ++ sign ")" b :: rest) = params ++ items := by
  induction h generalizing params with
  | one single => exact IsItem.parameters_some single params [] _
  | @more item ts items c single _ ih =>
    have hcomma : parameters 1 (some (params ++ [item])) (sign "," c :: (ts ++ sign ")" b :: rest)) =
        parameters 1 (some ((params ++ [item]) ++ [[]])) (ts ++ sign ")" b :: rest) := rfl
    rw [List.append_assoc, List.cons_append, IsItem.parameters_some single params [],
      List.nil_append, hcomma, ih, List.append_assoc, List.singleton_append]

end

/-- **The walk finds the parameters.** -/
theorem HasParameters.parameters_eq {ts : List Token} {params : List (List Token)}
    (h : HasParameters ts params) : parameters 0 none ts = params := by
  cases h with
  | @found front inner params a b rest before items =>
    have hstart : parameters 0 none (sign "(" a :: (inner ++ sign ")" b :: rest)) =
        parameters 1 (some ([] ++ [[]])) (inner ++ sign ")" b :: rest) := rfl
    rw [Level.parameters_none before, hstart, Items.parameters_some items, List.nil_append]
  | absent tokens =>
    have := Level.parameters_none tokens []
    rwa [List.append_nil] at this

/-- A properly nested header has parameters in this sense. -/
theorem exists_hasParameters {ts : List Token} (h : Nested brackets ts) :
    ∃ params, HasParameters ts params := by
  -- up to the first parentheses the tokens are collected
  suffices hfront : ∀ front, Level brackets [("[", "]")] (fun _ => true) front →
      ∃ params, HasParameters (front ++ ts) params from hfront [] .nil
  induction h with
  | nil =>
    intro front hfront
    rw [List.append_nil]
    exact ⟨[], .absent hfront⟩
  | @plain t ts opens closes rest ih =>
    intro front hfront
    have hmore := ih (front ++ [t]) (hfront.append (.plain opens closes rfl .nil))
    rwa [List.append_assoc, List.singleton_append] at hmore
  | @group o c ts us kind a b inner rest _ ih =>
    intro front hfront
    simp only [brackets, List.mem_cons, Prod.mk.injEq, List.not_mem_nil, or_false] at kind
    rcases kind with ⟨rfl, rfl⟩ | ⟨rfl, rfl⟩
    · obtain ⟨items, hitems⟩ := inner.exists_items
      exact ⟨items, .found a b us hfront hitems⟩
    · have hsquare : Level brackets [("[", "]")] (fun _ => true)
          (sign "[" a :: (ts ++ [sign "]" b])) :=
        .group (List.mem_singleton_self _) a b inner .nil
      have hmore := ih _ (hfront.append hsquare)
      simpa using hmore

/-! ## What is reported -/

/-- Whether a parameter takes ownership of a raw pointer: it starts with `owned` and names the
pointer type. -/
def takesPointer (param : List Token) : Bool :=
  param.head?.any (·.isIdent "owned") && param.any (·.isIdent "UnsafePointer")

/-- Memory is freed among the tokens: a call of a method `free`. -/
def CallsFree (tokens : List Token) : Prop :=
  ∃ before dot free paren after, tokens = before ++ dot :: free :: paren :: after ∧
    dot.isPunct "." = true ∧ free.isIdent "free" = true ∧ paren.isPunct "(" = true

/-- The body is a kernel or frees memory: one of its lines that are not excluded shows it. -/
def Accounts (s : Source) (body : Block) : Prop :=
  ∃ j row, body.first ≤ j ∧ j < body.stop ∧ s.rows[j]? = some row ∧ row.excluded = false ∧
    ((∃ t ∈ row.tokens, t.kind = .ident ∧ t.text ∈ Gpu.kernelIndicators) ∨ CallsFree row.tokens)

/-- The findings about one function. -/
def functionFindings (s : Source) (f : Function) : List Finding :=
  if isKernel s f.block then [] else leakFindings s s.lines f ++ allocFindings s f.block

theorem callsFree_cons {t : Token} {ts : List Token} :
    CallsFree (t :: ts) ↔
      (t.isPunct "." = true ∧ ∃ free paren after, ts = free :: paren :: after ∧
        free.isIdent "free" = true ∧ paren.isPunct "(" = true) ∨ CallsFree ts := by
  constructor
  · rintro ⟨before, dot, free, paren, after, heq, hdot, hfree, hparen⟩
    cases before with
    | nil =>
      cases heq
      exact .inl ⟨hdot, free, paren, after, rfl, hfree, hparen⟩
    | cons u before =>
      cases heq
      exact .inr ⟨before, dot, free, paren, after, rfl, hdot, hfree, hparen⟩
  · rintro (⟨hdot, free, paren, after, rfl, hfree, hparen⟩ |
      ⟨before, dot, free, paren, after, rfl, hdot, hfree, hparen⟩)
    · exact ⟨[], t, free, paren, after, rfl, hdot, hfree, hparen⟩
    · exact ⟨t :: before, dot, free, paren, after, rfl, hdot, hfree, hparen⟩

/-- The search for a call keeps the token before. -/
theorem freesAmong_iff (second prev : Option Token) (ts : List Token) :
    freesAmong none second prev ts = true ↔ CallsFree (prev.toList ++ ts) := by
  induction ts generalizing second prev with
  | nil =>
    refine ⟨nofun, ?_⟩
    rintro ⟨before, dot, free, paren, after, heq, -⟩
    have hlength := congrArg List.length heq
    simp only [List.length_append, List.length_cons, List.length_nil] at hlength
    cases prev <;> simp only [Option.toList, List.length_nil, List.length_singleton] at hlength <;>
      omega
  | cons t ts ih =>
    rw [freesAmong, Bool.or_eq_true, ih, Option.toList_some, List.singleton_append]
    cases prev with
    | none => simp
    | some p =>
      rw [Option.toList_some, List.singleton_append, callsFree_cons (t := p)]
      refine or_congr_left ?_
      cases ts with
      | nil => simp
      | cons u us =>
        simp only [Option.any_some, List.head?_cons, Bool.and_eq_true, Bool.and_true]
        constructor
        · rintro ⟨⟨hfree, hdot⟩, hparen⟩
          exact ⟨hdot, t, u, us, rfl, hfree, hparen⟩
        · rintro ⟨hdot, _, _, _, ⟨⟩, hfree, hparen⟩
          exact ⟨⟨hfree, hdot⟩, hparen⟩

theorem accounts_iff (s : Source) (body : Block) :
    Accounts s body ↔ isKernel s body = true ∨ frees s body none = true := by
  have hkernel : ∀ row : Row, row.tokens.any Gpu.isKernelIndicator = true ↔
      ∃ t ∈ row.tokens, t.kind = .ident ∧ t.text ∈ Gpu.kernelIndicators := by
    intro row
    simp only [List.any_eq_true, Gpu.isKernelIndicator, Bool.and_eq_true, beq_iff_eq,
      List.contains_iff_mem]
  have hfrees : ∀ row : Row, freesAmong none none none row.tokens = true ↔ CallsFree row.tokens :=
    fun row => freesAmong_iff none none row.tokens
  simp only [isKernel, frees, Source.anyVisible_bodyRows_iff, hkernel, hfrees]
  constructor
  · rintro ⟨j, row, hfirst, hstop, hrow, hvisible, h | h⟩
    · exact .inl ⟨j, row, hfirst, hstop, hrow, hvisible, h⟩
    · exact .inr ⟨j, row, hfirst, hstop, hrow, hvisible, h⟩
  · rintro (⟨j, row, hfirst, hstop, hrow, hvisible, h⟩ | ⟨j, row, hfirst, hstop, hrow, hvisible, h⟩)
    · exact ⟨j, row, hfirst, hstop, hrow, hvisible, .inl h⟩
    · exact ⟨j, row, hfirst, hstop, hrow, hvisible, .inr h⟩

/-- The raw pointers that a function takes ownership of, by its parameters. -/
theorem owned_parameters (params : List (List Token)) :
    (params.filterMap PointerParameter.ofTokens?).filter PointerParameter.owned =
      (params.filter takesPointer).map fun param => ⟨nameBeforeColon param, true⟩ := by
  induction params with
  | nil => rfl
  | cons param params ih =>
    rw [List.filterMap_cons, List.filter_cons, takesPointer, PointerParameter.ofTokens?]
    cases param.any (·.isIdent "UnsafePointer") with
    | false =>
      rw [Bool.and_false]
      exact ih
    | true =>
      cases howned : param.head?.any (·.isIdent "owned") with
      | false =>
        rw [if_pos rfl, Bool.false_and, List.filter_cons]
        exact ih
      | true =>
        rw [if_pos rfl, Bool.true_and, List.filter_cons]
        exact congrArg (_ :: ·) ih

/-- Only leaks are reported under their name. -/
theorem filter_leaks (s : Source) (f : Function) :
    (functionFindings s f).filter (Finding.isBy "POSSIBLE_LEAK") =
      if isKernel s f.block then [] else leakFindings s s.lines f := by
  have hleaks : ∀ x ∈ leakFindings s s.lines f, x.isBy "POSSIBLE_LEAK" = true := by
    intro x hx
    unfold leakFindings at hx
    split at hx
    · cases hx
    · obtain ⟨p, -, rfl⟩ := List.mem_map.1 hx
      exact beq_self_eq_true _
  have hallocs : ∀ x ∈ allocFindings s f.block, ¬ x.isBy "POSSIBLE_LEAK" = true := by
    intro x hx
    obtain ⟨⟨row, i⟩, -, hfinding⟩ := List.mem_filterMap.1 hx
    simp only at hfinding
    split at hfinding
    · cases hfinding
    · obtain ⟨name, -, hname⟩ := Option.bind_eq_some_iff.1 hfinding
      split at hname
      · cases hname
      · cases hname
        exact (by decide : ¬ (Text.ofString "ALLOC_WITHOUT_FREE" == "POSSIBLE_LEAK") = true)
  unfold functionFindings
  split
  · rfl
  · rw [List.filter_append, List.filter_eq_self.2 hleaks, List.filter_eq_nil_iff.2 hallocs,
      List.append_nil]

/-- **A leak is reported for exactly the owned raw pointers.** The findings about memory are those
about one function after the other, and a function is reported for each of its parameters that takes
a raw pointer, in their order, unless its body accounts for them. A properly nested header has
parameters. Without quotes on its lines, a header is nested as its lines are. -/
theorem leaks_exact (s : Source) :
    findings s = s.functions.flatMap (functionFindings s) ∧
      ∀ f ∈ s.functions,
        let tokens := Token.ofLine (Block.headerText s.lines f.block.header)
        let read := Block.headerTokens s.lines f.block.header f.block.headerEnd
        let leaks := (functionFindings s f).filter (Finding.isBy "POSSIBLE_LEAK")
        ((∀ line ∈ Block.headerLines s.lines f.block.header f.block.headerEnd,
            NoQuote line ∧ line.length < UInt32.size) →
          Token.Thinned tokens read ∧ (Nested brackets read → Nested brackets tokens)) ∧
        (Nested brackets tokens → ∃ params, HasParameters tokens params) ∧
        ∀ params, HasParameters tokens params →
          (Accounts s f.block → leaks = []) ∧
          (¬ Accounts s f.block → leaks = (params.filter takesPointer).map fun param =>
            leakFinding s f ⟨nameBeforeColon param, true⟩) := by
  refine ⟨rfl, fun f hf => ?_⟩
  intro tokens read leaks
  refine ⟨fun hlines => ?_, exists_hasParameters, fun params hparams => ?_⟩
  · obtain ⟨row, -, -, -, hat⟩ := Source.of_mem_functions hf
    have hthinned : Token.Thinned tokens read :=
      Block.thinned_headerText (Block.at?_spec hat).2.1 (fun line hline => (hlines line hline).1)
        fun line hline => (hlines line hline).2
    refine ⟨hthinned, fun hnested => hnested.of_thinned ?_ hthinned⟩
    intro o c hkind
    apply Struct.of_brackets hkind <;> decide +kernel
  · have hleaks : leaks = if isKernel s f.block then [] else leakFindings s s.lines f :=
      filter_leaks s f
    rw [hleaks, accounts_iff]
    constructor
    · rintro (hkernel | hfrees)
      · rw [if_pos hkernel]
      · rw [leakFindings, if_pos hfrees, ite_self]
    · intro hquiet
      obtain ⟨hkernel, hfrees⟩ := not_or.1 hquiet
      rw [if_neg hkernel, leakFindings, if_neg hfrees, pointerParameters, hparams.parameters_eq,
        owned_parameters, List.map_map]
      rfl

/-- A header over two lines with two pointers: only the one that is owned is reported. -/
theorem leaks_exact_two_pointers :
    let t : Text := "fn f(owned p: UnsafePointer[Int],\n     q: UnsafePointer[Int]):\n    pass\n"
    let s := Source.ofText "a.mojo" t false
    ∃ f ∈ s.functions,
      Nested brackets (Token.ofLine (Block.headerText s.lines f.block.header)) ∧
        ¬ Accounts s f.block ∧
        (functionFindings s f).filter (Finding.isBy "POSSIBLE_LEAK") =
          [leakFinding s f ⟨"p", true⟩] := by
  repeat rw [Text.ofString_ofList]
  intro t s
  obtain ⟨f, hf, hblock⟩ : ∃ f ∈ s.functions, f.block = ⟨0, 1, 2, 3, 0⟩ := by decide +kernel
  have htokens : Token.ofLine (Block.headerText s.lines 0) =
      Token.word "fn" 0 :: Token.word "f" 3 ::
        sign "(" 4 :: ([Token.word "owned" 5, Token.word "p" 11, sign ":" 12,
          Token.word "UnsafePointer" 14, sign "[" 27, Token.word "Int" 28, sign "]" 31,
          sign "," 32, Token.word "q" 39, sign ":" 40, Token.word "UnsafePointer" 42,
          sign "[" 55, Token.word "Int" 56, sign "]" 59] ++ sign ")" 60 :: [sign ":" 61]) := by
    decide +kernel
  have hint : ∀ column, Nested brackets [Token.word "Int" column] := fun column =>
    .plain rfl rfl .nil
  have hparen : (Text.ofString "(", Text.ofString ")") ∈ brackets := List.mem_cons_self
  have hsquare : (Text.ofString "[", Text.ofString "]") ∈ brackets :=
    List.mem_cons_of_mem _ List.mem_cons_self
  have hnested : Nested brackets (Token.ofLine (Block.headerText s.lines f.block.header)) := by
    rw [hblock, htokens]
    refine .plain rfl rfl (.plain rfl rfl (.group hparen 4 60 ?_ (.plain rfl rfl .nil)))
    refine .plain rfl rfl (.plain rfl rfl (.plain rfl rfl (.plain rfl rfl ?_)))
    refine @Nested.group _ "[" "]" [_] _ hsquare 27 31 (hint 28) ?_
    refine .plain rfl rfl (.plain rfl rfl (.plain rfl rfl (.plain rfl rfl ?_)))
    exact @Nested.group _ "[" "]" [_] _ hsquare 55 59 (hint 56) .nil
  have hquiet : ¬ Accounts s f.block := by
    rw [accounts_iff, hblock]
    decide +kernel
  refine ⟨f, hf, hnested, hquiet, ?_⟩
  obtain ⟨-, hexact⟩ := leaks_exact s
  obtain ⟨-, hexists, hleaks⟩ := hexact f hf
  obtain ⟨params, hparams⟩ := hexists hnested
  have hread : params.filter takesPointer =
      [[Token.word "owned" 5, Token.word "p" 11, sign ":" 12, Token.word "UnsafePointer" 14,
        sign "[" 27, Token.word "Int" 28, sign "]" 31]] := by
    rw [← hparams.parameters_eq, hblock, htokens]
    decide +kernel
  refine ((hleaks params hparams).2 hquiet).trans ?_
  rw [hread]
  rfl

end MojoLint.Rule.Memory
