import MojoLint.Proofs.Balance.Lexed

/-!
# Well-structured texts are words of brackets

The structure check keeps a stack of open brackets and stops at its first fault. What it decides
does not mention a stack: the two-state scan, which knows only whether it is inside a docstring,
meets brackets in code (`met`), and these have to be a word of the grammar of matched brackets
(`Dyck`).

The stack is what a word still has to close. `Closes s w` says that `w` closes the brackets `s`, the
innermost first, with matched words in between. Reading a word in front of what closes its stack
gives a word that closes the stack from which the reading started (`Closes.of_nest`), so a reading
that ends with the empty stack has read a matched word, and one that ends anywhere can be completed
to one. A reading that gets stuck cannot, since matched words are read without trouble
(`Dyck.nest`). The first bracket at which the reading gets stuck is the one that the check reports
(`check_dyck`).
-/

namespace MojoLint.Balance

/-! ## Matched brackets -/

/-- The brackets, each as it is opened and closed. -/
def pairs : List (UInt8 × UInt8) := [(40, 41), (91, 93), (123, 125)]

/-- The words of matched brackets. -/
inductive Dyck : List UInt8 → Prop
  | nil : Dyck []
  | group {o c : UInt8} {u v : List UInt8} (pair : (o, c) ∈ pairs) (inner : Dyck u)
      (rest : Dyck v) : Dyck (o :: (u ++ c :: v))

/-- Whether a byte is a bracket. -/
def isBracket (b : UInt8) : Bool := pairs.any fun p => b == p.1 || b == p.2

theorem of_pairs {P : UInt8 → UInt8 → Prop} {o c : UInt8} (h : (o, c) ∈ pairs) (hparen : P 40 41)
    (hsquare : P 91 93) (hbrace : P 123 125) : P o c := by
  simp only [pairs, List.mem_cons, Prod.mk.injEq, List.not_mem_nil, or_false] at h
  rcases h with ⟨rfl, rfl⟩ | ⟨rfl, rfl⟩ | ⟨rfl, rfl⟩
  · exact hparen
  · exact hsquare
  · exact hbrace

theorem isOpening_of_pairs {o c : UInt8} (pair : (o, c) ∈ pairs) : isOpening o = true := by
  apply of_pairs pair <;> rfl

theorem closes_of_pairs {o c : UInt8} (pair : (o, c) ∈ pairs) :
    isOpening c = false ∧ partner? c = some o := by
  apply of_pairs pair <;> exact ⟨rfl, rfl⟩

theorem nest_of_opens {o c : UInt8} (pair : (o, c) ∈ pairs) (s : List UInt8) :
    nest s o = some (o :: s) := by
  rw [nest, if_pos (isOpening_of_pairs pair)]

theorem nest_of_closes {o c : UInt8} (pair : (o, c) ∈ pairs) (s : List UInt8) :
    nest (o :: s) c = some s := by
  obtain ⟨hopening, hpartner⟩ := closes_of_pairs pair
  simp [nest, hopening, hpartner]

/-- A bracket is opened, or it closes the innermost one, or nothing can be done with it. -/
theorem nest_cases {b : UInt8} (hb : isBracket b = true) (s : List UInt8) :
    (∃ c, (b, c) ∈ pairs) ∨
      ∃ o, (o, b) ∈ pairs ∧ ∀ s', nest s b = some s' → s = o :: s' := by
  obtain ⟨⟨o, c⟩, pair, hb⟩ := List.any_eq_true.1 hb
  simp only [Bool.or_eq_true, beq_iff_eq] at hb
  rcases hb with rfl | rfl
  · exact .inl ⟨c, pair⟩
  · obtain ⟨hopening, hpartner⟩ := closes_of_pairs pair
    refine .inr ⟨o, pair, fun s' hs' => ?_⟩
    cases s with
    | nil => simp [nest, hopening, hpartner] at hs'
    | cons top s =>
      simp only [nest, hopening, hpartner, Bool.false_eq_true, if_false] at hs'
      split at hs'
      · rename_i htop
        cases hs'
        rw [htop]
      · cases hs'

/-- Matched brackets leave the stack as it is. -/
theorem Dyck.nest {w : List UInt8} (h : Dyck w) (s v : List UInt8) :
    (w ++ v).foldlM nest s = v.foldlM Balance.nest s := by
  induction h generalizing s v with
  | nil => rfl
  | @group o c u w pair inner rest ihinner ihrest =>
    rw [List.cons_append, List.append_assoc, List.foldlM_cons, nest_of_opens pair]
    refine (ihinner (o :: s) (c :: w ++ v)).trans ?_
    rw [List.cons_append, List.foldlM_cons, nest_of_closes pair]
    exact ihrest s v

/-- The word closes the open brackets, the innermost first, with matched words in between. -/
inductive Closes : List UInt8 → List UInt8 → Prop
  | nil {u : List UInt8} (matched : Dyck u) : Closes [] u
  | cons {o c : UInt8} {s u v : List UInt8} (pair : (o, c) ∈ pairs) (matched : Dyck u)
      (rest : Closes s v) : Closes (o :: s) (u ++ c :: v)

theorem Closes.group {o c : UInt8} {s u v : List UInt8} (pair : (o, c) ∈ pairs) (inner : Dyck u)
    (h : Closes s v) : Closes s (o :: (u ++ c :: v)) := by
  cases h with
  | nil matched => exact .nil (.group pair inner matched)
  | @cons o' c' s u' v pair' matched rest =>
    have := Closes.cons pair' (.group pair inner matched) rest
    rwa [List.cons_append, List.append_assoc] at this

/-- **The stack is what a word has left to close.** -/
theorem Closes.of_nest {w : List UInt8} (hw : ∀ b ∈ w, isBracket b = true) {s s' v : List UInt8}
    (hread : w.foldlM nest s = some s') (h : Closes s' v) : Closes s (w ++ v) := by
  induction w generalizing s with
  | nil =>
    cases hread
    exact h
  | cons b w ih =>
    obtain ⟨hb, hrest⟩ := List.forall_mem_cons.1 hw
    obtain ⟨next, hnext, hread⟩ := Option.bind_eq_some_iff.1 hread
    have hlater := ih hrest hread
    rcases nest_cases hb s with ⟨c, pair⟩ | ⟨o, pair, hclosed⟩
    · rw [nest_of_opens pair] at hnext
      cases hnext
      rw [List.cons_append]
      generalize w ++ v = behind at hlater ⊢
      cases hlater with
      | cons pair' matched rest => exact rest.group pair' matched
    · obtain rfl := hclosed next hnext
      exact .cons pair .nil hlater

theorem isOpening_of_nest {w s s' : List UInt8} (hs : ∀ b ∈ s, ∃ c, (b, c) ∈ pairs)
    (h : w.foldlM nest s = some s') : ∀ b ∈ s', ∃ c, (b, c) ∈ pairs := by
  have hopens : ∀ {b}, isOpening b = true → ∃ p ∈ pairs, p.1 = b :=
    @(Byte.all (by decide +kernel))
  induction w generalizing s with
  | nil =>
    cases h
    exact hs
  | cons b w ih =>
    obtain ⟨next, hnext, h⟩ := Option.bind_eq_some_iff.1 h
    refine ih ?_ h
    unfold Balance.nest at hnext
    split at hnext
    · rename_i hopening
      obtain ⟨⟨_, c⟩, pair, rfl⟩ := hopens hopening
      cases hnext
      exact List.forall_mem_cons.2 ⟨⟨c, pair⟩, hs⟩
    · split at hnext
      · cases hnext
        exact hs
      · split at hnext
        · split at hnext
          · cases hnext
            exact fun b hb => hs b (List.mem_cons_of_mem _ hb)
          · cases hnext
        · cases hnext

theorem exists_closes {s : List UInt8} (hs : ∀ b ∈ s, ∃ c, (b, c) ∈ pairs) : ∃ v, Closes s v := by
  induction s with
  | nil => exact ⟨[], .nil .nil⟩
  | cons o s ih =>
    obtain ⟨⟨c, pair⟩, hrest⟩ := List.forall_mem_cons.1 hs
    obtain ⟨v, hv⟩ := ih hrest
    exact ⟨c :: v, .cons pair .nil hv⟩

theorem dyck_of_closes {w : List UInt8} (h : Closes [] w) : Dyck w := by
  cases h
  assumption

section

variable {w : List UInt8}

/-- A word is matched when it leaves no bracket open. -/
theorem nest_eq_nil_iff (hw : ∀ b ∈ w, isBracket b = true) :
    w.foldlM nest [] = some [] ↔ Dyck w := by
  constructor
  · intro h
    have hcloses := Closes.of_nest hw h (.nil .nil)
    rw [List.append_nil] at hcloses
    exact dyck_of_closes hcloses
  · intro h
    have hread := h.nest [] []
    rwa [List.append_nil] at hread

/-- A word starts a matched one when it can be read. -/
theorem exists_nest_iff (hw : ∀ b ∈ w, isBracket b = true) :
    (∃ s, w.foldlM nest [] = some s) ↔ ∃ v, Dyck (w ++ v) := by
  constructor
  · rintro ⟨s, hs⟩
    obtain ⟨v, hv⟩ := exists_closes (isOpening_of_nest (List.forall_mem_nil _) hs)
    exact ⟨v, dyck_of_closes (Closes.of_nest hw hs hv)⟩
  · rintro ⟨v, hv⟩
    have hread := hv.nest [] []
    rw [List.append_nil, List.foldlM_append] at hread
    obtain ⟨s, hs, -⟩ := Option.bind_eq_some_iff.1 hread
    exact ⟨s, hs⟩

/-- The next bracket of a word cannot be read when nothing completes the word behind it. -/
theorem nest_eq_none_iff {s : List UInt8} {b : UInt8} (hw : ∀ b ∈ w, isBracket b = true)
    (hb : isBracket b = true) (hread : w.foldlM nest [] = some s) :
    nest s b = none ↔ ¬ ∃ v, Dyck (w ++ b :: v) := by
  have hall : ∀ c ∈ w ++ [b], isBracket c = true :=
    List.forall_mem_append.2 ⟨hw, List.forall_mem_singleton.2 hb⟩
  have hstarts := exists_nest_iff hall
  have hlast : (w ++ [b]).foldlM nest [] = nest s b := by
    rw [List.foldlM_append, hread, Option.bind_eq_bind, Option.bind_some, List.foldlM_cons]
    cases nest s b <;> rfl
  simp only [hlast, List.append_assoc, List.singleton_append] at hstarts
  rw [← hstarts, Option.eq_none_iff_forall_ne_some, not_exists]

end

/-! ## What the two-state scan meets -/

/-- The bracket that a token is. -/
def bracket? (t : Token) : Option UInt8 := (signByte? t).filter isBracket

/-- Whether a token is a string that its line leaves open although no docstring starts with it. -/
def isStray (t : Token) : Bool := t.kind == .string .unterminated && !opensDocstring t

/-- Whether a token opens a docstring that its line leaves open. -/
def leavesDocstring (t : Token) : Bool := t.kind == .string .unterminated && opensDocstring t

/-- Whether the two-state scan is inside a docstring behind a line. -/
def side (inside : Bool) (line : Text) : Bool :=
  match codePart? inside line with
  | none => inside
  | some code => (Token.ofLine code).any leavesDocstring

/-- The tokens that the two-state scan meets in code on the lines from number `i` on, each with its
line. -/
def met (inside : Bool) (i : Nat) : List Text → List (Token × Nat)
  | [] => []
  | line :: rest =>
    (Reading.ofLine inside line).tokens.map (·, i) ++ met (side inside line) (i + 1) rest

/-- The brackets among the tokens. -/
def brackets (ms : List (Token × Nat)) : List UInt8 := ms.filterMap fun m => bracket? m.1

theorem isBracket_of_mem_brackets {ms : List (Token × Nat)} :
    ∀ b ∈ brackets ms, isBracket b = true := by
  intro b hb
  obtain ⟨m, -, hm⟩ := List.mem_filterMap.1 hb
  exact (Option.filter_eq_some_iff.1 hm).2

/-! ## The check on what is met -/

/-- The check of the tokens that are met, one after the other. -/
def feed (stack : Stack) : List (Token × Nat) → Except Fault Stack
  | [] => .ok stack
  | (t, i) :: rest =>
    if isStray t then .error (.unterminatedString i)
    else
      match bracket? t with
      | none => feed stack rest
      | some b => (bracketStep i stack b).bind fun next => feed next rest

theorem feed_append (stack : Stack) (xs ys : List (Token × Nat)) :
    feed stack (xs ++ ys) = (feed stack xs).bind (feed · ys) := by
  induction xs generalizing stack with
  | nil => rfl
  | cons m xs ih =>
    obtain ⟨t, i⟩ := m
    simp only [List.cons_append, feed]
    split
    · rfl
    · split
      · exact ih stack
      · cases bracketStep i stack _ with
        | error fault => rfl
        | ok next => exact ih next

theorem bracketStep_of_not_isBracket {b : UInt8} (hb : isBracket b = false) (i : Nat)
    (stack : Stack) : bracketStep i stack b = .ok stack := by
  have hnone : ∀ {b}, isBracket b = false → isOpening b = false ∧ partner? b = none :=
    @(Byte.all (by decide +kernel))
  obtain ⟨hopening, hpartner⟩ := hnone hb
  simp [bracketStep, hopening, hpartner]

/-- The scan of the tokens of a line is the check of them, and it notices a docstring. -/
theorem scanTokens_eq_feed {ts : List Token} (hlast : ts.Pairwise fun a _ => ¬ a.endsLine) (i : Nat)
    (stack : Stack) :
    scanTokens i stack ts =
      (feed stack (ts.map (·, i))).map fun next => (next, ts.any leavesDocstring) := by
  induction ts generalizing stack with
  | nil => rfl
  | cons t ts ih =>
    obtain ⟨hend, hrest⟩ := List.pairwise_cons.1 hlast
    rw [List.map_cons, List.any_cons]
    unfold scanTokens feed
    by_cases hopen : t.kind = .string .unterminated
    · -- an open string is the last token
      obtain rfl : ts = [] := by
        cases ts with
        | nil => rfl
        | cons u us => exact absurd (.inr hopen) (hend u List.mem_cons_self)
      have hbracket : bracket? t = none := by
        rw [bracket?, signByte?, hopen]
        rfl
      cases hdoc : opensDocstring t <;>
        simp [isStray, leavesDocstring, hopen, hdoc, hbracket, feed, Except.map]
    · have hstray : isStray t = false := by simp [isStray, hopen]
      have hleaves : leavesDocstring t = false := by simp [leavesDocstring, hopen]
      rw [if_neg hopen, hstray, if_neg Bool.false_ne_true, hleaves, Bool.false_or]
      unfold bracket?
      cases hsign : signByte? t with
      | none => exact ih hrest stack
      | some b =>
        cases hb : isBracket b with
        | false =>
          rw [Option.filter_some, if_neg (by rw [hb]; exact Bool.false_ne_true)]
          simp only [bracketStep_of_not_isBracket hb]
          exact ih hrest stack
        | true =>
          rw [Option.filter_some, if_pos hb]
          simp only
          cases bracketStep i stack b with
          | error fault => rfl
          | ok next => exact ih hrest next

/-- Two computations that agree but for what they are mapped by agree on their fault. -/
theorem cases_of_map_eq {α β γ : Type} {x : Except Fault α} {y : Except Fault β} {f : α → γ}
    {g : β → γ} (h : x.map f = y.map g) :
    (∃ fault, x = .error fault ∧ y = .error fault) ∨ ∃ a b, x = .ok a ∧ y = .ok b ∧ f a = g b := by
  cases x with
  | error fault =>
    cases y with
    | error fault' =>
      cases h
      exact .inl ⟨fault, rfl, rfl⟩
    | ok b => cases h
  | ok a =>
    cases y with
    | error fault => cases h
    | ok b => exact .inr ⟨a, b, rfl, rfl, Except.ok.inj h⟩

theorem State.step_eq_feed (s : State) (i : Nat) (line : Text) :
    (s.step i line).map (fun next => (next.stack, next.doc.isSome)) =
      (feed s.stack ((Reading.ofLine s.doc.isSome line).tokens.map (·, i))).map
        (·, side s.doc.isSome line) := by
  unfold State.step side Reading.ofLine
  cases codePart? s.doc.isSome line with
  | none => rfl
  | some code =>
    simp only [Option.map_some, Option.getD_some]
    rw [scanTokens_eq_feed (Token.ofLine_pairwise code)]
    cases feed s.stack ((Token.ofLine code).map (·, i)) with
    | error fault => rfl
    | ok next => cases (Token.ofLine code).any leavesDocstring <;> rfl

/-- **The check is the two-state scan**, and the check of what it meets. -/
theorem State.run_eq_feed (s : State) (i : Nat) (lines : List Text) :
    (s.run i lines).map (fun next => (next.stack, next.doc.isSome)) =
      (feed s.stack (met s.doc.isSome i lines)).map (·, lines.foldl side s.doc.isSome) := by
  induction lines generalizing s i with
  | nil => rfl
  | cons line rest ih =>
    rw [met, feed_append, List.foldl_cons, State.run]
    rcases cases_of_map_eq (s.step_eq_feed i line) with
      ⟨fault, hstep, hfeed⟩ | ⟨next, stack, hstep, hfeed, hnext⟩
    · rw [hstep, hfeed]
      rfl
    · obtain ⟨rfl, hside⟩ := Prod.mk.inj hnext
      rw [hstep, hfeed, ← hside]
      exact ih next (i + 1)

/-! ## Faults -/

/-- Brackets are the only thing that the check of tokens without stray strings looks at. -/
theorem feed_eq_nest {ms : List (Token × Nat)} (hms : ∀ m ∈ ms, isStray m.1 = false)
    (stack : Stack) :
    (feed stack ms).toOption.map (·.map Prod.fst) =
      (brackets ms).foldlM nest (stack.map Prod.fst) := by
  induction ms generalizing stack with
  | nil => rfl
  | cons m ms ih =>
    obtain ⟨t, i⟩ := m
    obtain ⟨hstray, hrest⟩ := List.forall_mem_cons.1 hms
    simp only at hstray
    rw [feed, hstray, if_neg Bool.false_ne_true, brackets, List.filterMap_cons]
    cases bracket? t with
    | none => exact ih hrest stack
    | some b =>
      simp only
      rw [List.foldlM_cons, nest_eq_bracketStep i stack b]
      cases bracketStep i stack b with
      | error fault => rfl
      | ok next => exact ih hrest next

theorem not_isStray_of_feed {ms : List (Token × Nat)} {stack next : Stack}
    (h : feed stack ms = .ok next) : ∀ m ∈ ms, isStray m.1 = false := by
  induction ms generalizing stack with
  | nil => exact List.forall_mem_nil _
  | cons m ms ih =>
    obtain ⟨t, i⟩ := m
    rw [feed] at h
    split at h
    · cases h
    · rename_i hstray
      refine List.forall_mem_cons.2 ⟨Bool.eq_false_iff.2 hstray, ?_⟩
      split at h
      · exact ih h
      · cases hstep : bracketStep i stack _ with
        | error fault =>
          rw [hstep] at h
          cases h
        | ok next' =>
          rw [hstep] at h
          exact ih h

/-- The check gets through tokens when none is a stray string and the brackets can be read. -/
theorem exists_feed_iff (stack : Stack) (ms : List (Token × Nat)) {s : List UInt8} :
    (∃ next, feed stack ms = .ok next ∧ next.map Prod.fst = s) ↔
      (∀ m ∈ ms, isStray m.1 = false) ∧
        (brackets ms).foldlM nest (stack.map Prod.fst) = some s := by
  constructor
  · rintro ⟨next, hnext, rfl⟩
    have hstray := not_isStray_of_feed hnext
    exact ⟨hstray, by rw [← feed_eq_nest hstray, hnext]; rfl⟩
  · rintro ⟨hstray, hread⟩
    rw [← feed_eq_nest hstray] at hread
    obtain ⟨next, hnext, hs⟩ := Option.map_eq_some_iff.1 hread
    refine ⟨next, ?_, hs⟩
    cases hfeed : feed stack ms with
    | error fault =>
      rw [hfeed] at hnext
      cases hnext
    | ok next' =>
      rw [hfeed] at hnext
      cases hnext
      rfl

theorem bracketStep_error {i : Nat} {stack : Stack} {b : UInt8} {fault : Fault}
    (h : bracketStep i stack b = .error fault) : fault = .unbalanced b i := by
  unfold bracketStep at h
  split at h
  · cases h
  · split at h
    · cases h
    · split at h
      · split at h
        · cases h
        · cases h
          rfl
      · cases h
        rfl

theorem nest_eq_none_iff_bracketStep {i : Nat} {stack : Stack} {b : UInt8} :
    nest (stack.map Prod.fst) b = none ↔ bracketStep i stack b = .error (.unbalanced b i) := by
  rw [nest_eq_bracketStep i]
  cases h : bracketStep i stack b with
  | error fault =>
    cases bracketStep_error h
    exact ⟨fun _ => rfl, fun _ => rfl⟩
  | ok next => exact ⟨nofun, nofun⟩

/-- A bracket is reported when the check gets to it and cannot read it. -/
theorem feed_unbalanced_iff {ms : List (Token × Nat)} {stack : Stack} {b : UInt8} {line : Nat} :
    feed stack ms = .error (.unbalanced b line) ↔
      ∃ before t after next, ms = before ++ (t, line) :: after ∧ feed stack before = .ok next ∧
        bracket? t = some b ∧ nest (next.map Prod.fst) b = none := by
  constructor
  · intro h
    induction ms generalizing stack with
    | nil => cases h
    | cons m ms ih =>
      obtain ⟨t, i⟩ := m
      rw [feed] at h
      split at h
      · cases h
      · rename_i hstray
        -- the bracket is the first token, or comes behind it
        have hlater : ∀ next, feed stack [(t, i)] = .ok next →
            feed next ms = .error (.unbalanced b line) → ∃ before t' after next',
              (t, i) :: ms = before ++ (t', line) :: after ∧ feed stack before = .ok next' ∧
                bracket? t' = some b ∧ nest (next'.map Prod.fst) b = none := by
          intro next hfirst hrest
          obtain ⟨before, t', after, next', rfl, hbefore, hbracket, hstuck⟩ := ih hrest
          refine ⟨(t, i) :: before, t', after, next', rfl, ?_, hbracket, hstuck⟩
          rw [← List.singleton_append, feed_append, hfirst]
          exact hbefore
        split at h
        · rename_i hbracket
          exact hlater stack (by rw [feed, if_neg hstray, hbracket]; rfl) h
        · rename_i b' hbracket
          cases hstep : bracketStep i stack b' with
          | error fault =>
            rw [hstep] at h
            cases bracketStep_error hstep
            cases h
            exact ⟨[], t, ms, stack, rfl, rfl, hbracket, nest_eq_none_iff_bracketStep.2 hstep⟩
          | ok next =>
            rw [hstep] at h
            refine hlater next ?_ h
            rw [feed, if_neg hstray, hbracket]
            simp only [hstep]
            rfl
  · rintro ⟨before, t, after, next, rfl, hbefore, hbracket, hstuck⟩
    have hstray : isStray t = false := by
      rw [isStray, Bool.and_eq_false_iff]
      left
      rw [beq_eq_false_iff_ne]
      intro hkind
      rw [bracket?, signByte?, hkind] at hbracket
      cases hbracket
    rw [feed_append, hbefore]
    simp only [Except.bind, feed, hstray, hbracket, nest_eq_none_iff_bracketStep.1 hstuck,
      Bool.false_eq_true, if_false]

/-! ## The check -/

theorem State.finish_ne_unbalanced (s : State) (b : UInt8) (line : Nat) :
    s.finish ≠ .error (.unbalanced b line) := by
  obtain ⟨stack, doc⟩ := s
  cases doc with
  | some opened => simp [finish, scanLines]
  | none => cases stack <;> simp [finish, scanLines]

/-- The scan of a text from its start. -/
theorem start_run_eq_feed (lines : List Text) :
    (State.start.run 0 lines).map (fun next => (next.stack, next.doc.isSome)) =
      (feed [] (met false 0 lines)).map (·, lines.foldl side false) :=
  State.start.run_eq_feed 0 lines

theorem check_eq_ok_iff_feed {t : Text} :
    check t = .ok () ↔
      feed [] (met false 0 t.lines) = .ok [] ∧ t.lines.foldl side false = false := by
  rw [check_eq_ok_iff, stateAt, List.take_length]
  rcases cases_of_map_eq (start_run_eq_feed t.lines) with
    ⟨fault, hrun, hfeed⟩ | ⟨⟨stack, doc⟩, next, hrun, hfeed, hnext⟩
  · rw [hrun, hfeed]
    constructor
    · intro h
      cases h
    · rintro ⟨h, -⟩
      cases h
  · obtain ⟨rfl, hside⟩ := Prod.mk.inj hnext
    rw [hrun, hfeed, ← hside]
    simp [State.start]

theorem check_eq_unbalanced_iff {t : Text} {b : UInt8} {line : Nat} :
    check t = .error (.unbalanced b line) ↔
      feed [] (met false 0 t.lines) = .error (.unbalanced b line) := by
  have hcheck : check t = (State.start.run 0 t.lines).bind State.finish :=
    scanLines_eq_run 0 State.start t.lines
  rw [hcheck]
  rcases cases_of_map_eq (start_run_eq_feed t.lines) with
    ⟨fault, hrun, hfeed⟩ | ⟨s, next, hrun, hfeed, -⟩
  · rw [hrun, hfeed]
    exact ⟨fun h => congrArg Except.error (Except.error.inj h),
      fun h => congrArg Except.error (Except.error.inj h)⟩
  · rw [hrun, hfeed]
    exact ⟨fun h => absurd h (s.finish_ne_unbalanced b line), nofun⟩

/-- **The structure check accepts exactly the matched texts.** It accepts a text when the two-state
scan meets no stray string and ends in code, and the brackets that it meets are a matched word. It
reports a bracket when that is the first one behind which the brackets no longer start a matched
word, and no stray string comes before it. -/
theorem check_dyck (t : Text) :
    (check t = .ok () ↔
      (∀ m ∈ met false 0 t.lines, isStray m.1 = false) ∧ t.lines.foldl side false = false ∧
        Dyck (brackets (met false 0 t.lines))) ∧
    ∀ b line, check t = .error (.unbalanced b line) ↔
      ∃ before tok after, met false 0 t.lines = before ++ (tok, line) :: after ∧
        (∀ m ∈ before, isStray m.1 = false) ∧ bracket? tok = some b ∧
          (∃ w, Dyck (brackets before ++ w)) ∧ ¬ ∃ w, Dyck (brackets before ++ b :: w) := by
  constructor
  · have hread := exists_feed_iff [] (met false 0 t.lines) (s := [])
    simp only [List.map_eq_nil_iff, List.map_nil, exists_eq_right] at hread
    rw [check_eq_ok_iff_feed, hread, nest_eq_nil_iff isBracket_of_mem_brackets]
    exact and_assoc.trans (and_congr_right fun _ => and_comm)
  · intro b line
    rw [check_eq_unbalanced_iff, feed_unbalanced_iff]
    constructor
    · rintro ⟨before, tok, after, next, hmet, hbefore, hbracket, hstuck⟩
      obtain ⟨hstray, hread⟩ := (exists_feed_iff [] before).1 ⟨next, hbefore, rfl⟩
      have hb := (Option.filter_eq_some_iff.1 hbracket).2
      exact ⟨before, tok, after, hmet, hstray, hbracket,
        (exists_nest_iff isBracket_of_mem_brackets).1 ⟨_, hread⟩,
        (nest_eq_none_iff isBracket_of_mem_brackets hb hread).1 hstuck⟩
    · rintro ⟨before, tok, after, hmet, hstray, hbracket, hstarts, hends⟩
      obtain ⟨s, hread⟩ := (exists_nest_iff isBracket_of_mem_brackets).2 hstarts
      obtain ⟨next, hbefore, rfl⟩ := (exists_feed_iff [] before).2 ⟨hstray, hread⟩
      have hb := (Option.filter_eq_some_iff.1 hbracket).2
      exact ⟨before, tok, after, next, hmet, hbefore, hbracket,
        (nest_eq_none_iff isBracket_of_mem_brackets hb hread).2 hends⟩

end MojoLint.Balance
