import MojoLint.Proofs.Block.Body
import MojoLint.Proofs.Block.Reading
import MojoLint.Declaration.Struct

/-!
# The grammar of struct headers

A struct header is given here by its tokens (`IsHeader`), and two of the passes over a header are
described on that form: the search for the colon that ends it, and the reader of its traits. Each
passes over what is properly nested (`Balanced`) with a counter of its own.
-/

namespace MojoLint

namespace Token

/-- The token of a sign. -/
def sign (s : Text) (column : UInt32) : Token := ⟨.punct, s, column⟩

/-- The token of a word. -/
def word (name : Text) (column : UInt32) : Token := ⟨.ident, name, column⟩

/-- The signs that a header is made of. -/
def signs : List Text := ["(", ")", "[", "]", "\x7b", "\x7d", ",", "&", ":"]

theorem isPunct_congr {t u : Token} (hkind : u.kind = t.kind) (htext : u.text = t.text)
    (s : Text) : u.isPunct s = t.isPunct s := by
  rw [isPunct, isPunct, hkind, htext]

theorem IsBlank.isPunct_eq_false {t : Token} (h : t.IsBlank) {s : Text} (hs : s ∈ signs) :
    t.isPunct s = false := by
  have hsigns : ∀ s ∈ signs, ∃ b ∈ s, Byte.isSpace b = false := by decide +kernel
  obtain ⟨b, hb, hspace⟩ := hsigns s hs
  rw [isPunct, Bool.and_eq_false_iff]
  right
  rw [beq_eq_false_iff_ne]
  rintro rfl
  rw [h.2 b hb] at hspace
  cases hspace

theorem IsBlank.no_bracket {t : Token} (h : t.IsBlank) :
    t.isOpener = false ∧ t.isCloser = false ∧ Block.opens t = false ∧ Block.closes t = false := by
  simp only [isOpener, isCloser, Block.opens, Block.closes,
    h.isPunct_eq_false (show ("(" : Text) ∈ signs by decide +kernel),
    h.isPunct_eq_false (show (")" : Text) ∈ signs by decide +kernel),
    h.isPunct_eq_false (show ("[" : Text) ∈ signs by decide +kernel),
    h.isPunct_eq_false (show ("]" : Text) ∈ signs by decide +kernel),
    h.isPunct_eq_false (show ("\x7b" : Text) ∈ signs by decide +kernel),
    h.isPunct_eq_false (show ("\x7d" : Text) ∈ signs by decide +kernel)]
  exact ⟨rfl, rfl, rfl, rfl⟩

theorem not_isBlank_sign {s : Text} (hs : s ∈ signs) (column : UInt32) :
    ¬ (sign s column).IsBlank := by
  intro h
  have := h.isPunct_eq_false hs
  simp [sign, isPunct] at this

theorem not_isBlank_of_ident {t : Token} (h : t.kind = .ident) : ¬ t.IsBlank := by
  intro hblank
  rw [hblank.1] at h
  cases h

end Token

namespace Struct

open Token (sign word Thinned)

theorem exists_word_of_thinned {us ts : List Token} {name : Text} {a : UInt32}
    (h : Thinned us (word name a :: ts)) : ∃ b us', us = word name b :: us' ∧ Thinned us' ts := by
  obtain ⟨⟨kind, read, b⟩, us', rfl, hkind, hread, hrest⟩ :=
    h.of_cons (Token.not_isBlank_of_ident rfl)
  obtain rfl : kind = .ident := hkind
  obtain rfl : read = name := hread
  exact ⟨b, us', rfl, hrest⟩

theorem exists_sign_of_thinned {us ts : List Token} {s : Text} (hs : s ∈ Token.signs) {a : UInt32}
    (h : Thinned us (sign s a :: ts)) : ∃ b us', us = sign s b :: us' ∧ Thinned us' ts := by
  obtain ⟨⟨kind, read, b⟩, us', rfl, hkind, hread, hrest⟩ :=
    h.of_cons (Token.not_isBlank_sign hs a)
  obtain rfl : kind = .punct := hkind
  obtain rfl : read = s := hread
  exact ⟨b, us', rfl, hrest⟩

/-- The kinds of brackets that a header may hold, each as it is opened and closed. -/
def brackets : List (Text × Text) := [("(", ")"), ("[", "]")]

/-- The brackets among the tokens are properly nested, and there are no braces. -/
inductive Balanced : List Token → Prop
  | nil : Balanced []
  | plain {t : Token} {ts : List Token} (opens : Block.opens t = false)
      (closes : Block.closes t = false) (rest : Balanced ts) : Balanced (t :: ts)
  | group {o c : Text} {ts us : List Token} (pair : (o, c) ∈ brackets) (a b : UInt32)
      (inner : Balanced ts) (rest : Balanced us) :
      Balanced (sign o a :: (ts ++ sign c b :: us))

theorem of_brackets {p : Text → Text → Prop} {o c : Text} (h : (o, c) ∈ brackets)
    (hparen : p "(" ")") (hsquare : p "[" "]") : p o c := by
  simp only [brackets, List.mem_cons, Prod.mk.injEq, List.not_mem_nil, or_false] at h
  rcases h with ⟨rfl, rfl⟩ | ⟨rfl, rfl⟩
  · exact hparen
  · exact hsquare

/-- The compile-time parameters of a header, when there are any. -/
inductive IsParameters : List Token → Prop
  | none : IsParameters []
  | some {ts : List Token} (a b : UInt32) (inner : Balanced ts) :
      IsParameters (sign "[" a :: (ts ++ [sign "]" b]))

/-- The trait list of a header, when there is one: it is empty, or its first entry starts with an
identifier. -/
inductive IsTraitList : List Token → Prop
  | none : IsTraitList []
  | some {ts : List Token} (a b : UInt32) (inner : Balanced ts)
      (first : ∀ t ∈ ts.head?, t.kind = .ident) : IsTraitList (sign "(" a :: (ts ++ [sign ")" b]))

/-- The tokens start with the header of a struct. -/
inductive IsHeader (name : Text) : List Token → Prop
  | intro {params list rest : List Token} (a b c : UInt32) (name_ne : name ≠ "struct")
      (parameters : IsParameters params) (traits : IsTraitList list) :
      IsHeader name (word "struct" a :: word name b :: (params ++ (list ++ sign ":" c :: rest)))

/-! ## The search for the end -/

theorem Balanced.depthAfter {ts : List Token} (h : Balanced ts) (d : Nat) :
    Block.depthAfter (d + 1) ts = some (d + 1) := by
  induction h generalizing d with
  | nil => rfl
  | @plain t ts opens closes rest ih =>
    rw [Block.depthAfter, opens, closes, ih d]
    simp
  | @group o c ts us pair a b inner rest ihinner ihrest =>
    have hopen : Block.depthAfter (d + 1) (sign o a :: (ts ++ sign c b :: us)) =
        Block.depthAfter (d + 2) (ts ++ sign c b :: us) := by
      apply of_brackets pair <;> rfl
    have hclose : Block.depthAfter (d + 2) (sign c b :: us) = Block.depthAfter (d + 1) us := by
      apply of_brackets pair <;> rfl
    rw [hopen, Block.depthAfter_append, ihinner (d + 1), Option.bind_some, hclose, ihrest d]

theorem Balanced.depthAfter_group {o c : Text} {ts : List Token} (pair : (o, c) ∈ brackets)
    (a b : UInt32) (inner : Balanced ts) (d : Nat) :
    Block.depthAfter d (sign o a :: (ts ++ [sign c b])) = some d := by
  have hopen : Block.depthAfter d (sign o a :: (ts ++ [sign c b])) =
      Block.depthAfter (d + 1) (ts ++ [sign c b]) := by
    apply of_brackets pair <;> rfl
  rw [hopen, Block.depthAfter_append, inner.depthAfter d, Option.bind_some]
  apply of_brackets pair <;> rfl

/-- What comes before the colon of a header leaves no bracket open. -/
theorem depthAfter_parameters {params : List Token} (h : IsParameters params) :
    Block.depthAfter 0 params = some 0 := by
  cases h with
  | none => rfl
  | some a b inner => exact inner.depthAfter_group (by decide +kernel) a b 0

/-- Blank tokens and columns mean nothing to the search. -/
theorem depthAfter_thinned {us ts : List Token} (h : Thinned us ts) (d : Nat) :
    Block.depthAfter d us = Block.depthAfter d ts := by
  induction h generalizing d with
  | nil => rfl
  | @keep u t us ts kind text rest ih =>
    have hpunct := Token.isPunct_congr kind text
    simp only [Block.depthAfter, Block.opens, Block.closes, hpunct, ih]
    rfl
  | @drop t us ts blank rest ih =>
    obtain ⟨-, -, hopens, hcloses⟩ := blank.no_bracket
    have hcolon := blank.isPunct_eq_false (show (":" : Text) ∈ Token.signs by decide +kernel)
    rw [ih, Block.depthAfter, hopens, hcloses, hcolon]
    simp

/-! ## The reader of traits -/

theorem Balanced.of_plain {t : Token} (hopens : Block.opens t = false)
    (hcloses : Block.closes t = false) :
    t.isOpener = false ∧ t.isCloser = false ∧ t.isPunct "[" = false ∧ t.isPunct "]" = false := by
  simp only [Block.opens, Block.closes, Bool.or_eq_false_iff] at hopens hcloses
  obtain ⟨⟨hparen, hsquare⟩, -⟩ := hopens
  obtain ⟨⟨hparen', hsquare'⟩, -⟩ := hcloses
  exact ⟨by rw [Token.isOpener, hparen, hsquare]; rfl,
    by rw [Token.isCloser, hparen', hsquare']; rfl, hsquare, hsquare'⟩

theorem Balanced.behind {ts : List Token} (h : Balanced ts) (d : Nat) (us : List Token) :
    Declaration.skipParameters.behind (d + 1) (ts ++ us) =
      Declaration.skipParameters.behind (d + 1) us := by
  induction h generalizing d us with
  | nil => rfl
  | @plain t ts opens closes rest ih =>
    obtain ⟨-, -, hsquare, hsquare'⟩ := of_plain opens closes
    rw [List.cons_append, Declaration.skipParameters.behind, hsquare, hsquare', ih d us]
    simp
  | @group o c ts vs pair a b inner rest ihinner ihrest =>
    rw [List.cons_append, List.append_assoc, ← ihrest d us]
    -- parentheses are passed over like any other token
    apply of_brackets pair
    · exact ihinner d (sign ")" b :: (vs ++ us))
    · exact ihinner (d + 1) (sign "]" b :: (vs ++ us))

/-- Inside inner brackets no trait is named. -/
theorem Balanced.traitNames_inner {ts : List Token} (h : Balanced ts) (d : Nat)
    (current : Option Text) (us : List Token) :
    traitNames (d + 2) current (ts ++ us) = traitNames (d + 2) current us := by
  induction h generalizing d us with
  | nil => rfl
  | @plain t ts opens closes rest ih =>
    obtain ⟨hopener, hcloser, -, -⟩ := of_plain opens closes
    rw [List.cons_append, traitNames, hopener, hcloser, ih d us]
    simp
  | @group o c ts vs pair a b inner rest ihinner ihrest =>
    rw [List.cons_append, List.append_assoc, ← ihrest d us]
    apply of_brackets pair
    · exact ihinner (d + 1) (sign ")" b :: (vs ++ us))
    · exact ihinner (d + 1) (sign "]" b :: (vs ++ us))

/-- What a list of entries says and which name it leaves open does not depend on what follows. A
name that is open is said or stays open. -/
theorem Balanced.traitNames_entries {ts : List Token} (h : Balanced ts) (current : Option Text) :
    ∃ names last, (current.isSome → names ++ Option.toList last ≠ []) ∧
      ∀ us, traitNames 1 current (ts ++ us) = names ++ traitNames 1 last us := by
  induction h generalizing current with
  | nil => exact ⟨[], current, by cases current <;> simp, fun us => rfl⟩
  | @plain t ts opens closes rest ih =>
    obtain ⟨hopener, hcloser, -, -⟩ := of_plain opens closes
    by_cases hsep : t.isPunct "," = true ∨ t.isPunct "&" = true
    · obtain ⟨names, last, -, hread⟩ := ih none
      refine ⟨current.toList ++ names, last, ?_, fun us => ?_⟩
      · cases current <;> simp
      · rw [List.cons_append, traitNames, hopener, hcloser, hread us]
        simp [hsep]
    · by_cases hname : t.kind = .ident ∧ current = none
      · obtain ⟨names, last, hsome, hread⟩ := ih (some t.text)
        refine ⟨names, last, fun _ => hsome rfl, fun us => ?_⟩
        rw [List.cons_append, traitNames, hopener, hcloser, hname.2, ← hread us]
        simp [hsep, hname.1]
      · obtain ⟨names, last, hsome, hread⟩ := ih current
        refine ⟨names, last, hsome, fun us => ?_⟩
        rw [List.cons_append, traitNames, hopener, hcloser, ← hread us]
        simp [hsep, hname]
  | @group o c ts vs pair a b inner rest ihinner ihrest =>
    obtain ⟨names, last, hsome, hread⟩ := ihrest current
    refine ⟨names, last, hsome, fun us => ?_⟩
    rw [List.cons_append, List.append_assoc, ← hread us]
    apply of_brackets pair
    · exact inner.traitNames_inner 0 current (sign ")" b :: (vs ++ us))
    · exact inner.traitNames_inner 0 current (sign "]" b :: (vs ++ us))

/-- A list whose first token is an identifier says a name or leaves one open. -/
theorem Balanced.traitNames_list {ts : List Token} (h : Balanced ts)
    (first : ∀ t ∈ ts.head?, t.kind = .ident) :
    ∃ names last, (ts ≠ [] → names ++ Option.toList last ≠ []) ∧
      ∀ us, traitNames 1 none (ts ++ us) = names ++ traitNames 1 last us := by
  cases h with
  | nil => exact ⟨[], none, fun hne => absurd rfl hne, fun us => rfl⟩
  | @plain t ts opens closes rest =>
    have hident : t.kind = .ident := first t rfl
    obtain ⟨hopener, hcloser, -, -⟩ := of_plain opens closes
    obtain ⟨names, last, hsome, hread⟩ := rest.traitNames_entries (some t.text)
    refine ⟨names, last, fun _ => hsome rfl, fun us => ?_⟩
    rw [List.cons_append, traitNames, hopener, hcloser, ← hread us]
    simp [Token.isPunct, hident]
  | @group o c ts us pair a b inner rest => cases first _ rfl

/-- What stands behind the parameters is found there. -/
theorem skipParameters_append {params : List Token} (hparams : IsParameters params) {s : Text}
    (hs : s ≠ "[") (c : UInt32) (tail : List Token) :
    Declaration.skipParameters (params ++ sign s c :: tail) = sign s c :: tail := by
  cases hparams with
  | none =>
    have hsquare : (sign s c).isPunct "[" = false := by
      rw [Token.isPunct, beq_eq_false_iff_ne.2 (show (sign s c).text ≠ "[" from hs), Bool.and_false]
    rw [List.nil_append, Declaration.skipParameters, hsquare]
    rfl
  | @some ts a b inner =>
    have hskip := inner.behind 0 (sign "]" b :: sign s c :: tail)
    rw [List.cons_append, List.append_assoc]
    exact hskip

/-- Blank tokens and columns mean nothing to the reader of traits. -/
theorem traitNames_thinned {us ts : List Token} (h : Thinned us ts) (d : Nat)
    (current : Option Text) : traitNames d current us = traitNames d current ts := by
  induction h generalizing d current with
  | nil => rfl
  | @keep u t us ts kind text rest ih =>
    have hpunct := Token.isPunct_congr kind text
    simp only [traitNames, Token.isOpener, Token.isCloser, hpunct, kind, text, ih]
    rfl
  | @drop t us ts blank rest ih =>
    obtain ⟨hopener, hcloser, -, -⟩ := blank.no_bracket
    have hcomma := blank.isPunct_eq_false (show ("," : Text) ∈ Token.signs by decide +kernel)
    have hand := blank.isPunct_eq_false (show ("&" : Text) ∈ Token.signs by decide +kernel)
    rw [ih, traitNames, hopener, hcloser, hcomma, hand, blank.1]
    simp

theorem thinned_behind {us ts : List Token} (h : Thinned us ts) (d : Nat) :
    Thinned (Declaration.skipParameters.behind d us) (Declaration.skipParameters.behind d ts) := by
  induction h generalizing d with
  | nil => exact .nil
  | @keep u t us ts kind text rest ih =>
    have hpunct := Token.isPunct_congr kind text
    unfold Declaration.skipParameters.behind
    rw [hpunct, hpunct]
    split
    · exact ih (d + 1)
    · split
      · split
        · exact rest
        · exact ih (d - 1)
      · exact ih d
  | @drop t us ts blank rest ih =>
    have hopen := blank.isPunct_eq_false (show ("[" : Text) ∈ Token.signs by decide +kernel)
    have hclose := blank.isPunct_eq_false (show ("]" : Text) ∈ Token.signs by decide +kernel)
    have hskip : Declaration.skipParameters.behind d (t :: ts) =
        Declaration.skipParameters.behind d ts := by
      rw [Declaration.skipParameters.behind, hopen, hclose]
      rfl
    rw [hskip]
    exact ih d

/-- The traits of a header stand behind its parameters, in parentheses. -/
theorem traitsOf_thinned {params us tail : List Token} (hparams : IsParameters params) {s : Text}
    (hs : s = "(" ∨ s = ":") (c : UInt32) (h : Thinned us (params ++ sign s c :: tail)) :
    traitsOf us = if s = "(" then traitNames 1 none tail else [] := by
  have hsigns : s ∈ Token.signs := by
    rcases hs with rfl | rfl <;> decide +kernel
  have hsquare : (sign s c).isPunct "[" = false := by
    rcases hs with rfl | rfl <;> rfl
  have hskip : Thinned (Declaration.skipParameters us) (sign s c :: tail) := by
    cases hparams with
    | none =>
      obtain ⟨u, us, rfl, kind, text, -⟩ := h.of_cons (Token.not_isBlank_sign hsigns c)
      have hu : u.isPunct "[" = false := by
        rw [Token.isPunct, kind, text]
        exact hsquare
      rw [Declaration.skipParameters, if_neg (by simp [hu])]
      exact h
    | @some ts a b inner =>
      rw [List.cons_append, List.append_assoc] at h
      obtain ⟨u, us, rfl, kind, text, hrest⟩ :=
        h.of_cons (Token.not_isBlank_sign (by decide +kernel) a)
      have hu : u.isPunct "[" = true := by
        rw [Token.isPunct, kind, text]
        rfl
      have hbehind := thinned_behind hrest 1
      rw [inner.behind 0] at hbehind
      rw [Declaration.skipParameters, if_pos hu]
      exact hbehind
  obtain ⟨u, us', heq, kind, text, hrest⟩ := hskip.of_cons (Token.not_isBlank_sign hsigns c)
  have hu : u.isPunct "(" = decide (s = "(") := by
    rw [Token.isPunct, kind, text]
    rcases hs with rfl | rfl <;> rfl
  rw [traitsOf, heq]
  simp only [hu, decide_eq_true_eq, traitNames_thinned hrest]

/-! ## The declared struct -/

theorem cons_cons_dropComment {ts : List Token} {k n : Token} (hn : n.kind = .ident) :
    (∃ more, Token.dropComment ts = k :: n :: more) ↔ ∃ more, ts = k :: n :: more := by
  constructor
  · rintro ⟨more, h⟩
    obtain ⟨comment, hall⟩ := Token.exists_append_dropComment ts
    exact ⟨more ++ comment, by rw [hall, h]; rfl⟩
  · rintro ⟨more, rfl⟩
    unfold Token.dropComment
    split
    · rename_i t hlast
      split
      · rename_i hcomment
        cases more with
        | nil =>
          have hname : n = t := Option.some.inj hlast
          rw [← hname, hn] at hcomment
          cases hcomment
        | cons u more => exact ⟨(u :: more).dropLast, rfl⟩
      · exact ⟨more, rfl⟩
    · exact ⟨more, rfl⟩

theorem at?_eq_some_iff {lines : List Text} {i : Nat} {s : Struct} :
    at? lines i = some s ↔ ∃ k n more, Token.codeTokens ((lines[i]?).getD []) = k :: n :: more ∧
      k.isIdent "struct" = true ∧ n.kind = .ident ∧
      s = ⟨n.text, traitsOf ((Token.ofLine (Block.headerText lines i)).drop 2), i⟩ := by
  unfold at?
  constructor
  · intro h
    split at h
    · rename_i k n more htokens
      split at h
      · rename_i hhead
        simp only [Bool.and_eq_true, beq_iff_eq] at hhead
        cases h
        obtain ⟨code, hcode⟩ := (cons_cons_dropComment hhead.2).2 ⟨more, htokens⟩
        exact ⟨k, n, code, hcode, hhead.1, hhead.2, rfl⟩
      · cases h
    · cases h
  · rintro ⟨k, n, code, hcode, hk, hn, rfl⟩
    obtain ⟨more, htokens⟩ := (cons_cons_dropComment hn).1 ⟨code, hcode⟩
    simp [htokens, hk, hn]

/-- A struct is read off the tokens of its header. -/
theorem exists_at?_of_thinned {lines : List Text} {i last : Nat} {name : Text} {a b : UInt32}
    {tail : List Token} (hend : Block.headerEnd? lines i = some last)
    (hquote : ∀ line ∈ Block.headerLines lines i last, NoQuote line)
    (hsize : ∀ line ∈ Block.headerLines lines i last, line.length < UInt32.size)
    (htokens : Thinned (Block.headerTokens lines i last)
      (word "struct" a :: word name b :: tail))
    (hfirst : i < last → 2 ≤ (Token.codeTokens ((lines[i]?).getD [])).length) :
    ∃ us, Thinned us tail ∧ at? lines i = some ⟨name, traitsOf us, i⟩ := by
  have hread := (Block.thinned_headerText hend hquote hsize).trans htokens
  obtain ⟨k, ks, heq, hk, hktext, hks⟩ := htokens.of_cons (Token.not_isBlank_of_ident rfl)
  obtain ⟨n, ns, rfl, hn, hntext, -⟩ := hks.of_cons (Token.not_isBlank_of_ident rfl)
  obtain ⟨_, rs, hheader, -, -, hrs⟩ := hread.of_cons (Token.not_isBlank_of_ident rfl)
  obtain ⟨_, us, rfl, -, -, hus⟩ := hrs.of_cons (Token.not_isBlank_of_ident rfl)
  refine ⟨us, hus, at?_eq_some_iff.2 ?_⟩
  -- the keyword and the name stand on the first line
  obtain ⟨hle, hlast⟩ := Block.headerEnd?_spec hend
  rw [Block.headerTokens, Block.headerLines_eq_cons hle hlast, List.flatMap_cons] at heq
  have hline : ∃ more, Token.codeTokens ((lines[i]?).getD []) = k :: n :: more := by
    rcases Nat.lt_or_eq_of_le hle with hlt | rfl
    · have htwo := hfirst hlt
      generalize Token.codeTokens ((lines[i]?).getD []) = code at heq htwo ⊢
      rcases code with _ | ⟨k', _ | ⟨n', more⟩⟩
      · cases htwo
      · cases Nat.le_of_succ_le_succ htwo
      · obtain ⟨hkeyword, hrest⟩ := List.cons.inj heq
        exact ⟨more, by rw [hkeyword, (List.cons.inj hrest).1]⟩
    · rw [Nat.sub_self, List.take_zero, List.flatMap_nil, List.append_nil] at heq
      exact ⟨ns, heq⟩
  obtain ⟨more, hmore⟩ := hline
  refine ⟨k, n, more, hmore, ?_, hn, ?_⟩
  · rw [Token.isIdent, hk, hktext]
    rfl
  · rw [hheader, hntext]
    rfl

end Struct

end MojoLint
