import MojoLint.Proofs.Token.Tails
import MojoLint.Proofs.Traits.Form
import MojoLint.Proofs.Traits.Place

/-!
# The form of a header after an insertion

Where new traits go is decided by a walk that does not look at what precedes the end of the list,
and whether a comma is put in front of them by the traits that were read. So the form of a header
is kept but for two cases, and in these it is lost (`insertion_form`): a comma at the end of a list
that names traits is followed by another one, and a struct named like the keyword gets its list in
front of the name.
-/

namespace MojoLint

namespace Struct

/-- The header on line `i` ends on line `last`, holds no quotes and is of the form. -/
structure HasForm (lines : List Text) (i last : Nat) (name : Text) (params : List Token)
    (list : Option Ending) : Prop where
  ends : Block.headerEnd? lines i = some last
  noQuote : ∀ line ∈ Block.headerLines lines i last, NoQuote line
  form : IsForm name params list (Block.headerTokens lines i last)

end Struct

namespace Traits

open Struct (Balanced IsParameters IsItem IsEntries IsForm HasForm Ending exists_word_of_thinned
  exists_sign_of_thinned)
open Token (sign word Thinned)

/-! ## The tokens of new traits -/

/-- The tokens are names with single commas between them. -/
inductive IsNames : List Token → Prop
  | one (name : Text) (a : UInt32) : IsNames [word name a]
  | more {ts : List Token} (name : Text) (a c : UInt32) (rest : IsNames ts) :
      IsNames (word name a :: sign "," c :: ts)

/-- The tokens go on with a list that ends in an entry: there are none, or a comma and names. -/
inductive IsFurther : List Token → Prop
  | nil : IsFurther []
  | comma {ts : List Token} (c : UInt32) (names : IsNames ts) : IsFurther (sign "," c :: ts)

theorem IsNames.append_entries {xs : List Token} (h : IsNames xs) {e : Ending} {ts : List Token}
    (hts : IsEntries e ts) : IsEntries .entry (ts ++ xs) := by
  induction h generalizing e ts with
  | one name a => exact .item hts (.of_kind nofun)
  | more name a c rest ih =>
    have hone : IsEntries .entry (ts ++ [word name a]) := .item hts (.of_kind nofun)
    have hmore := ih (.comma c hone)
    rwa [List.append_assoc, List.append_assoc] at hmore

theorem IsFurther.append_entries {xs : List Token} (h : IsFurther xs) {ts : List Token}
    (hts : IsEntries .entry ts) : IsEntries .entry (ts ++ xs) := by
  cases h with
  | nil => rwa [List.append_nil]
  | comma c names =>
    have hmore := names.append_entries (.comma c hts)
    rwa [List.append_assoc] at hmore

theorem IsNames.depthAfter {xs : List Token} (h : IsNames xs) (d : Nat) :
    Block.depthAfter d xs = some d := by
  induction h with
  | one name a => rfl
  | more name a c rest ih => exact ih

theorem IsFurther.depthAfter {xs : List Token} (h : IsFurther xs) (d : Nat) :
    Block.depthAfter d xs = some d := by
  cases h with
  | nil => rfl
  | comma c names => exact names.depthAfter d

theorem IsNames.of_thinned {us ts : List Token} (h : IsNames ts) (hus : Thinned us ts) :
    IsNames us := by
  induction h generalizing us with
  | one name a =>
    obtain ⟨b, us', rfl, hrest⟩ := exists_word_of_thinned hus
    cases hrest
    exact .one name b
  | more name a c rest ih =>
    obtain ⟨b, us', rfl, hbehind⟩ := exists_word_of_thinned hus
    obtain ⟨d, vs, rfl, hrest⟩ := exists_sign_of_thinned (s := ",") (by decide +kernel) hbehind
    exact .more name b d (ih hrest)

theorem IsFurther.of_thinned {us ts : List Token} (h : IsFurther ts) (hus : Thinned us ts) :
    IsFurther us := by
  cases h with
  | nil =>
    cases hus
    exact .nil
  | comma c names =>
    obtain ⟨d, vs, rfl, hrest⟩ := exists_sign_of_thinned (s := ",") (by decide +kernel) hus
    exact .comma d (names.of_thinned hrest)

theorem IsNames.balanced {xs : List Token} (h : IsNames xs) : Balanced xs := by
  have hentries : IsEntries .entry xs := h.append_entries .empty
  exact hentries.balanced

theorem depthAfter_cons_of_kind {t : Token} (h : t.kind ≠ .punct) (d : Nat) (ts : List Token) :
    Block.depthAfter d (t :: ts) = Block.depthAfter d ts := by
  have hpunct : ∀ s, t.isPunct s = false := fun s => by
    rw [Token.isPunct, beq_eq_false_iff_ne.2 h, Bool.false_and]
  rw [Block.depthAfter, Block.opens, Block.closes]
  simp [hpunct]

/-- The text of new traits, at any column and behind a number that its first name goes on. -/
structure IsAddition (text : Text) : Prop where
  isCode : IsCode text
  no_feed : Byte.lf ∉ text
  letter : ∀ c ∈ text.head?, Byte.isIdentStart c = true
  names : ∀ pos, IsNames (Token.scan pos text)
  further : ∀ pos, IsFurther (Token.scan pos (text.dropWhile Byte.isNumberPart))

theorem isAddition_of_mem {p : Text × List Text} (h : p ∈ additions) :
    IsAddition (List.intercalate ", " p.2) := by
  have hletter : ∀ p ∈ additions, ∀ c ∈ (List.intercalate ", " p.2).head?,
      Byte.isIdentStart c = true := by decide +kernel
  have htokens : ∀ p ∈ additions,
      (Token.scan 0 (List.intercalate ", " p.2) = [word (List.intercalate ", " p.2) 0] ∧
        Token.scan 0 ((List.intercalate ", " p.2).dropWhile Byte.isNumberPart) = []) ∨
      (Token.scan 0 (List.intercalate ", " p.2) = [word "Copyable" 0, sign "," 8, word "Movable" 10] ∧
        Token.scan 0 ((List.intercalate ", " p.2).dropWhile Byte.isNumberPart) =
          [sign "," 0, word "Movable" 2]) := by decide +kernel
  have hnames := names_of_mem_additions h
  refine ⟨hnames.isCode, hnames.no_feed, hletter p h, fun pos => ?_, fun pos => ?_⟩
  · refine IsNames.of_thinned ?_ (Token.thinned_scan pos 0 _)
    rcases htokens p h with ⟨htext, -⟩ | ⟨htext, -⟩
    · exact htext ▸ .one _ 0
    · exact htext ▸ .more _ 0 8 (.one _ 10)
  · refine IsFurther.of_thinned ?_ (Token.thinned_scan pos 0 _)
    rcases htokens p h with ⟨-, hrest⟩ | ⟨-, hrest⟩
    · exact hrest ▸ .nil
    · exact hrest ▸ .comma 0 (.one _ 2)

/-! ## Names right behind entries -/

/-- A word or a number at the end of the entries may become a longer one. -/
theorem IsFurther.append_extended {xs : List Token} (h : IsFurther xs) {e : Ending}
    {ts : List Token} {u : Token} (hts : IsEntries e (ts ++ [u])) (hu : u.kind ≠ .punct)
    (more : Text) : IsEntries .entry (ts ++ u.extend more :: xs) := by
  obtain ⟨-, e', hbefore⟩ := hts.of_concat hu
  have hgrown : IsEntries .entry (ts ++ [u.extend more]) := .item hbefore (.of_kind hu)
  rw [List.append_cons]
  exact h.append_entries hgrown

theorem IsFurther.depthAfter_extended {xs : List Token} (h : IsFurther xs) (d : Nat)
    (ts : List Token) {u : Token} (hu : u.kind ≠ .punct) (more : Text) :
    Block.depthAfter d (ts ++ u.extend more :: xs) = Block.depthAfter d (ts ++ [u]) := by
  rw [Block.depthAfter_append, Block.depthAfter_append]
  congr 1
  funext d'
  rw [depthAfter_cons_of_kind (t := u.extend more) hu, depthAfter_cons_of_kind hu, h.depthAfter]
  rfl

/-- Names right behind entries are entries of their own, or the first of them is a part of the last
entry. That one ends in a number then: a name at its end would be a trait. -/
theorem IsAddition.exists_entries {p text : Text} {above front content : List Token}
    {opened : Token} {e : Ending} (hadd : IsAddition text) (hcode : IsCode p)
    (hopened : opened.kind = .punct)
    (hfront : above ++ Token.scan 0 p = front ++ opened :: content) (hcontent : IsEntries e content)
    (hlast : ∀ u ∈ content.getLast?, u.kind ≠ .ident) :
    (∃ content', above ++ Token.scan 0 (p ++ text) = front ++ opened :: content' ∧
        IsEntries .entry content') ∧
      ∀ d, Block.depthAfter d (Token.scan 0 (p ++ text)) = Block.depthAfter d (Token.scan 0 p) := by
  rcases Token.scan_append_name 0 hcode hadd.isCode.noQuote hadd.letter with
    hscan | ⟨ts, u, run, pos, hts, hgoes, hscan⟩
  · have hnames := hadd.names (0 + p.length)
    refine ⟨⟨content ++ Token.scan (0 + p.length) text, ?_, hnames.append_entries hcontent⟩,
      fun d => ?_⟩
    · rw [hscan, ← List.append_assoc, hfront, List.append_assoc, List.cons_append]
    · rw [hscan, Block.depthAfter_append]
      simp only [hnames.depthAfter]
      exact Option.bind_fun_some _
  · have hu : u.kind ≠ .punct := by
      intro hkind
      rw [hkind] at hgoes
      cases hgoes
    rw [hts, ← List.append_assoc] at hfront
    rcases List.eq_nil_or_concat content with rfl | ⟨init, v, rfl⟩
    · obtain ⟨-, hsame⟩ := List.append_inj' hfront rfl
      cases hsame
      exact absurd hopened hu
    · rw [List.concat_eq_append] at hfront hcontent hlast
      rw [← List.cons_append, ← List.append_assoc] at hfront
      obtain ⟨hinit, hsame⟩ := List.append_inj' hfront rfl
      cases hsame
      have hrun : run = Byte.isNumberPart := by
        generalize hkind : u.kind = kind at hgoes
        cases hgoes with
        | ident => exact absurd hkind (hlast u List.getLast?_concat)
        | number => rfl
      rw [hrun] at hscan
      have hfurther := hadd.further pos
      have hgrown := hfurther.append_extended hcontent hu (text.takeWhile Byte.isNumberPart)
      refine ⟨⟨_, ?_, hgrown⟩, fun d => ?_⟩
      · rw [hscan, ← List.append_assoc, hinit, List.append_assoc, List.cons_append]
      · rw [hscan, hts]
        exact hfurther.depthAfter_extended d ts hu _

/-! ## The header after the edit -/

/-- The edit leaves the end of the header on its line, and the header is of the form exactly when
`P` holds. -/
def FormAfter (t : Text) (e : Edit) (i last : Nat) (P : Prop) : Prop :=
  ∃ t', Edit.applyAll t [e] = ⟨t', none⟩ ∧ Block.headerEnd? t'.lines i = some last ∧
    ((∃ name params list, HasForm t'.lines i last name params list) ↔ P)

section

variable {t text name : Text} {i last : Nat} {f : Edit} {above : List Text} {p q : Text}
  {front us params rest : List Token} {a b c d : UInt32} {P : Prop}
  (hsize : t.length < UInt32.size) (hend : Block.headerEnd? t.lines i = some last)
  (hquote : ∀ line ∈ Block.headerLines t.lines i last, NoQuote line)

include hsize hend hquote

/-- What the edit does to the form is a matter of the tokens that it makes in front of itself. -/
theorem PutsInto.formAfter (h : PutsInto t i last f above p q front us)
    (hcode : IsCode f.replacement) (hfeed : Byte.lf ∉ f.replacement)
    (hback : Apart (p ++ f.replacement) (Token.uncomment q))
    (hdepth : ∀ d, Block.depthAfter d (Token.scan 0 (p ++ f.replacement)) =
      Block.depthAfter d (Token.scan 0 p))
    (hform : ∀ us', Thinned us' us → ((∃ name params list, IsForm name params list
      (above.flatMap Token.codeTokens ++ (Token.scan 0 (p ++ f.replacement) ++ us'))) ↔ P)) :
    FormAfter t f i last P := by
  obtain ⟨t', happly, hline, hnew⟩ := h.exists_lines hsize hfeed
  obtain ⟨ts, hcut, -⟩ := h.cut
  obtain ⟨us', htokens, hus⟩ := hcut.exists_insert hcode hback
  have hend' : Block.headerEnd? t'.lines i = some last := by
    rw [hnew]
    refine Block.headerEnd?_set hend hline fun d hd => ?_
    rw [hcut.tokens, ← hcut.before, Block.depthAfter_append] at hd
    rw [htokens, Block.depthAfter_append, hdepth, ← hd]
    congr 1
    funext d'
    exact Struct.depthAfter_thinned hus d'
  have hlines : Block.headerLines t'.lines i last = above ++ [p ++ (f.replacement ++ q)] := by
    rw [hnew]
    exact Block.headerLines_set h.lines h.length _
  have hquote' : ∀ line ∈ Block.headerLines t'.lines i last, NoQuote line := by
    intro line hmem
    rw [hlines, List.mem_append, List.mem_singleton] at hmem
    rcases hmem with hmem | rfl
    · exact hquote line (h.lines ▸ List.mem_append_left _ hmem)
    · exact hcut.noQuote_insert hcode
  have hheader : Block.headerTokens t'.lines i last =
      above.flatMap Token.codeTokens ++ (Token.scan 0 (p ++ f.replacement) ++ us') := by
    rw [Block.headerTokens, hlines, List.flatMap_append, List.flatMap_singleton, htokens]
  refine ⟨t', happly, hend', Iff.trans ?_ (hform us' hus)⟩
  rw [← hheader]
  constructor
  · rintro ⟨name, params, list, h⟩
    exact ⟨name, params, list, h.form⟩
  · rintro ⟨name, params, list, h⟩
    exact ⟨name, params, list, hend', hquote', h⟩

/-- A list of its own goes behind the tokens in front. -/
theorem PutsInto.formAfter_enclosed (h : PutsInto t i last f above p q front us)
    (hreplacement : f.replacement = "(" ++ text ++ ")") (hadd : IsAddition text)
    (hform : ∀ a b xs us', IsNames xs → Thinned us' us → ((∃ name params list,
      IsForm name params list (front ++ (sign "(" a :: (xs ++ sign ")" b :: us')))) ↔ P)) :
    FormAfter t f i last P := by
  obtain ⟨ts, hcut, hfront⟩ := h.cut
  have hcode := isCode_enclosed hadd.isCode
  obtain ⟨a, b, henclosed⟩ := scan_enclosed p.length hadd.isCode
  have hscan : Token.scan 0 (p ++ f.replacement) =
      ts ++ sign "(" a :: (Token.scan (p.length + 1) text ++ [sign ")" b]) := by
    rw [hreplacement, Token.scan_append 0 hcut.isCode hcode.noQuote (apart_enclosed p text),
      hcut.before, Nat.zero_add, henclosed]
  have hnames := hadd.names (p.length + 1)
  refine h.formAfter hsize hend hquote (hreplacement ▸ hcode)
    (hreplacement ▸ no_feed_enclosed hadd.no_feed) ?_ (fun d => ?_) fun us' hus => ?_
  · rw [hreplacement]
    refine (enclosed_apart text _).prepend ?_ p
    rw [paren_bytes.1]
    exact List.cons_ne_nil _ _
  · rw [hscan, hcut.before, Block.depthAfter_append]
    simp only [hnames.balanced.depthAfter_group (o := "(") (c := ")") (by decide +kernel)]
    exact Option.bind_fun_some _
  · have hread := hform a b _ us' hnames hus
    rw [← hfront] at hread
    rw [hscan]
    simpa using hread

/-- New entries go behind the tokens in front, after a comma. -/
theorem PutsInto.formAfter_separated (h : PutsInto t i last f above p q front us)
    (hreplacement : f.replacement = ", " ++ text) (hadd : IsAddition text)
    (hclose : ∃ behind, Token.uncomment q = ")" ++ behind)
    (hform : ∀ a xs us', IsNames xs → Thinned us' us → ((∃ name params list,
      IsForm name params list (front ++ (sign "," a :: (xs ++ us')))) ↔ P)) :
    FormAfter t f i last P := by
  obtain ⟨ts, hcut, hfront⟩ := h.cut
  have hcode := isCode_comma.append hadd.isCode
  obtain ⟨a, hseparated⟩ := scan_separated p.length hadd.isCode
  have hscan : Token.scan 0 (p ++ f.replacement) =
      ts ++ sign "," a :: Token.scan (p.length + 2) text := by
    rw [hreplacement, Token.scan_append 0 hcut.isCode hcode.noQuote (apart_separated p text),
      hcut.before, Nat.zero_add, hseparated]
  have hnames := hadd.names (p.length + 2)
  refine h.formAfter hsize hend hquote (hreplacement ▸ hcode)
    (hreplacement ▸ no_feed_separated hadd.no_feed) (apart_close hclose _) (fun d => ?_)
    fun us' hus => ?_
  · have hcomma : ∀ d', Block.depthAfter d' (sign "," a :: Token.scan (p.length + 2) text) =
        some d' := hnames.depthAfter
    rw [hscan, hcut.before, Block.depthAfter_append]
    simp only [hcomma]
    exact Option.bind_fun_some _
  · have hread := hform a _ us' hnames hus
    rw [← hfront] at hread
    rw [hscan]
    simpa using hread

/-- A header without a list gets one that names the traits. -/
theorem formAfter_front (path : Text) (checkDocs : Bool)
    (hname : name = "struct" → params ≠ []) (hparams : IsParameters params)
    (htokens : Block.headerTokens t.lines i last =
      word "struct" a :: word name b :: (params ++ sign ":" c :: rest))
    (hadd : IsAddition text) (old : List Text) (hP : P) :
    FormAfter t (insertion (Source.ofText path t checkDocs) ⟨name, old, i⟩ text) i last P := by
  obtain ⟨hreplacement, above, p, q, hputs⟩ :=
    exists_putsInto_front path checkDocs hend hquote hname hparams htokens old text
  refine hputs.formAfter_enclosed hsize hend hquote hreplacement hadd fun a' b' xs us' hxs hus => ?_
  obtain ⟨c', vs, rfl, -⟩ := exists_sign_of_thinned (s := ":") (by decide +kernel) hus
  refine iff_of_true ⟨name, params, some .entry, ?_⟩ hP
  have hentries : IsEntries .entry xs := hxs.append_entries .empty
  exact Struct.isForm_list a b a' b' c' hparams hentries

/-- A struct named like the keyword, with nothing but its name, gets its list in front of the
name. -/
theorem formAfter_keyword (path : Text) (checkDocs : Bool)
    (htokens : Block.headerTokens t.lines i last =
      word "struct" a :: word "struct" b :: sign ":" c :: rest)
    (hfirst : 2 ≤ (Token.codeTokens ((t.lines[i]?).getD [])).length)
    (hadd : IsAddition text) (old : List Text) (hP : ¬ P) :
    FormAfter t (insertion (Source.ofText path t checkDocs) ⟨"struct", old, i⟩ text) i last P := by
  obtain ⟨hreplacement, above, p, q, hputs⟩ :=
    exists_putsInto_keyword path checkDocs hend hquote htokens hfirst old text
  refine hputs.formAfter_enclosed hsize hend hquote hreplacement hadd fun a' b' xs us' hxs hus => ?_
  refine iff_of_false ?_ hP
  rintro ⟨_, _, _, hform⟩
  exact Struct.not_isForm_sign hform

/-- A list that names no trait gets the names without a comma, and takes them. -/
theorem formAfter_unnamed {content : List Token} {e : Ending} {colon : UInt32}
    (hputs : PutsInto t i last f above p q
      (word "struct" a :: word name b :: (params ++ sign "(" c :: content))
      (sign ")" d :: sign ":" colon :: rest))
    (hparams : IsParameters params) (hcontent : IsEntries e content)
    (hlast : ∀ u ∈ content.getLast?, u.kind ≠ .ident)
    (hclose : ∃ behind, Token.uncomment q = ")" ++ behind) (hadd : IsAddition text)
    (hreplacement : f.replacement = text) (hP : P) : FormAfter t f i last P := by
  obtain ⟨ts, hcut, hfront⟩ := hputs.cut
  rw [← hcut.before, ← List.cons_append, ← List.cons_append] at hfront
  obtain ⟨⟨content', hgrown, hentries⟩, hdepth⟩ :=
    hadd.exists_entries hcut.isCode rfl hfront hcontent hlast
  refine hputs.formAfter hsize hend hquote (hreplacement ▸ hadd.isCode)
    (hreplacement ▸ hadd.no_feed) (apart_close hclose _) (hreplacement ▸ hdepth) fun us' hus => ?_
  obtain ⟨d', vs, rfl, hbehind⟩ := exists_sign_of_thinned (s := ")") (by decide +kernel) hus
  obtain ⟨colon', ws, rfl, -⟩ := exists_sign_of_thinned (s := ":") (by decide +kernel) hbehind
  refine iff_of_true ⟨name, params, some .entry, ?_⟩ hP
  rw [hreplacement, ← List.append_assoc, hgrown]
  simpa using Struct.isForm_list a b c d' colon' hparams hentries

/-- A list that names traits gets new entries behind a comma. It keeps its form unless it ends in a
comma already. -/
theorem formAfter_named {content : List Token} {e : Ending} {colon : UInt32}
    (hputs : PutsInto t i last f above p q
      (word "struct" a :: word name b :: (params ++ sign "(" c :: content))
      (sign ")" d :: sign ":" colon :: rest))
    (hparams : IsParameters params) (hcontent : IsEntries e content) (hstart : e ≠ .start)
    (hclose : ∃ behind, Token.uncomment q = ")" ++ behind) (hadd : IsAddition text)
    (hreplacement : f.replacement = ", " ++ text) : FormAfter t f i last (e ≠ .comma) := by
  refine hputs.formAfter_separated hsize hend hquote hreplacement hadd hclose
    fun comma xs us' hxs hus => ?_
  cases e with
  | start => exact absurd rfl hstart
  | entry =>
    obtain ⟨d', vs, rfl, hbehind⟩ := exists_sign_of_thinned (s := ")") (by decide +kernel) hus
    obtain ⟨colon', ws, rfl, -⟩ := exists_sign_of_thinned (s := ":") (by decide +kernel) hbehind
    refine iff_of_true ⟨name, params, some .entry, ?_⟩ nofun
    have hentries := hxs.append_entries (.comma comma hcontent)
    simpa using Struct.isForm_list a b c d' colon' hparams hentries
  | comma =>
    refine iff_of_false ?_ fun h => h rfl
    rintro ⟨_, _, _, hform⟩
    rw [List.cons_append, List.cons_append, List.append_assoc, List.cons_append] at hform
    exact Struct.not_isForm_adjacent hparams hcontent hform

/-- A header with a list keeps its form unless the list names traits and ends in a comma. -/
theorem formAfter_list (path : Text) (checkDocs : Bool)
    (hparams : IsParameters params) {content : List Token} {e : Ending} {colon : UInt32}
    (hcontent : IsEntries e content)
    (htokens : Block.headerTokens t.lines i last = word "struct" a :: word name b ::
      (params ++ sign "(" c :: content) ++ [sign ")" d] ++ sign ":" colon :: rest)
    (hadd : IsAddition text) :
    let old := Struct.traitNames 1 none (content ++ sign ")" d :: sign ":" colon :: rest)
    FormAfter t (insertion (Source.ofText path t checkDocs) ⟨name, old, i⟩ text) i last
      (¬ (e = .comma ∧ old ≠ [])) := by
  intro old
  obtain ⟨hreplacement, above, p, q, hputs, hclose, -⟩ := exists_putsInto_list path checkDocs hend
    hquote hparams hcontent.balanced rfl htokens old text
  by_cases hold : old = []
  · refine formAfter_unnamed hsize hend hquote hputs hparams hcontent (fun u hu hident => ?_) hclose
      hadd ?_ fun h => h.2 hold
    · obtain ⟨init, rfl⟩ := List.getLast?_eq_some_iff.1 hu
      obtain ⟨-, e', hbefore⟩ := hcontent.of_concat (by rw [hident]; nofun)
      refine hbefore.balanced.traitNames_ne_nil hident (sign ")" d :: sign ":" colon :: rest) ?_
      rw [List.append_cons]
      exact hold
    · rw [hreplacement, hold]
      rfl
  · have hne : old.isEmpty = false := List.isEmpty_eq_false_iff.2 hold
    rw [hne, if_neg Bool.false_ne_true] at hreplacement
    have hstart : e ≠ .start := by
      rintro rfl
      cases hcontent
      exact hold rfl
    obtain ⟨t', happly, hlast, hiff⟩ := formAfter_named hsize hend hquote hputs hparams hcontent
      hstart hclose hadd hreplacement
    exact ⟨t', happly, hlast, hiff.trans ⟨fun h h' => h h'.1, fun h h' => h ⟨h', hold⟩⟩⟩

end

/-- **The form of a header after an insertion.** Take a struct whose header is of the form, and a
finding that declares traits for it. Carrying out the first edit of the finding, the only one that
inserts, leaves the end of the header on its line. The header is of the form again in all but two
cases: the list names a trait and ends in a comma, or the struct is named like the keyword and has
neither parameters nor a list. -/
theorem insertion_form {path t name : Text} {checkDocs : Bool} {i last : Nat} {params : List Token}
    {list : Option Ending} (hsize : t.length < UInt32.size)
    (hheader : HasForm t.lines i last name params list) {row : Row} {f : Finding}
    (hf : f ∈ Rule.Structs.lineFindings (Source.ofText path t checkDocs) t.lines row i)
    {added : List Text} (hid : (f.id, added) ∈ additions) :
    ∃ e others t' struct, f.edits = e :: others ∧ (∀ o ∈ others, o.replacement = []) ∧
      Edit.applyAll t [e] = ⟨t', none⟩ ∧ Block.headerEnd? t'.lines i = some last ∧
      Struct.at? t.lines i = some struct ∧
      ((∃ name' params' list', HasForm t'.lines i last name' params' list') ↔
        ¬ (list = some .comma ∧ struct.traits ≠ []) ∧
          ¬ (name = "struct" ∧ params = [] ∧ list = none)) := by
  obtain ⟨struct, l, hstruct, hmem⟩ := exists_struct_of_addition hf hid
  obtain ⟨others, hedits, hothers⟩ := edits_of_mem_findings hmem hid
  have hadd := isAddition_of_mem hid
  obtain ⟨hend, hquote, hform⟩ := hheader
  have hafter : FormAfter t (insertion (Source.ofText path t checkDocs) struct
      (List.intercalate ", " added)) i last (¬ (list = some .comma ∧ struct.traits ≠ []) ∧
        ¬ (name = "struct" ∧ params = [] ∧ list = none)) := by
    generalize htokens : Block.headerTokens t.lines i last = tokens at hform
    cases hform with
    | @intro traits rest a b c parameters list_form =>
      cases list_form with
      | none =>
        obtain rfl := Struct.eq_of_at? hsize hend hquote hstruct parameters (.inr rfl) htokens
        by_cases hkeyword : name = "struct" ∧ params = []
        · obtain ⟨rfl, rfl⟩ := hkeyword
          obtain ⟨k, n, more, hcode, -⟩ := Struct.at?_eq_some_iff.1 hstruct
          exact formAfter_keyword hsize hend hquote path checkDocs htokens
            (by rw [hcode]; exact Nat.le_add_left 2 more.length) hadd _ fun h => h.2 ⟨rfl, rfl, rfl⟩
        · exact formAfter_front hsize hend hquote path checkDocs (fun h h' => hkeyword ⟨h, h'⟩)
            parameters htokens hadd _ ⟨nofun, fun h => hkeyword ⟨h.1, h.2.1⟩⟩
      | @some e content a' b' inner =>
        have hgroup : Block.headerTokens t.lines i last = word "struct" a :: word name b ::
            (params ++ sign "(" a' :: (content ++ sign ")" b' :: sign ":" c :: rest)) := by
          simpa using htokens
        obtain rfl := Struct.eq_of_at? hsize hend hquote hstruct parameters (.inl rfl) hgroup
        rw [if_pos rfl]
        obtain ⟨t', happly, hlast, hiff⟩ := formAfter_list hsize hend hquote path checkDocs
          parameters inner (by simpa using htokens) hadd
        exact ⟨t', happly, hlast, hiff.trans (by simp)⟩
  obtain ⟨t', happly, hlast, hiff⟩ := hafter
  exact ⟨_, others, t', struct, hedits, hothers, happly, hlast, hstruct, hiff⟩

/-- A header over several lines, with comments. -/
theorem insertion_form_multiline :
    let t : Text := "struct Pair[\n    T: Movable,  # the item\n](\n    Base[T],\n" ++
      "    Sized  # traits\n):\n    var x: T\n" ++
      "    fn __copyinit__(out self, other: Self):\n        self.x = other.x\n"
    let s := Source.ofText "a.mojo" t false
    let params := [sign "[" 11, word "T" 4, sign ":" 5, word "Movable" 7, sign "," 14, sign "]" 0]
    t.length < UInt32.size ∧ HasForm t.lines 0 5 "Pair" params (some .entry) ∧
      ∃ row ∈ s.rows, ∃ f ∈ Rule.Structs.lineFindings s t.lines row 0,
        f.id = "TRAIT_ADD_COPYABLE" ∧ ∃ e others t', f.edits = e :: others ∧
          Edit.applyAll t [e] = ⟨t', none⟩ ∧
          ∃ name' params' list', HasForm t'.lines 0 5 name' params' list' := by
  repeat rw [Text.ofString_ofList]
  intro t s params
  have hsize : t.length < UInt32.size := by decide +kernel
  have htokens : Block.headerTokens t.lines 0 5 = word "struct" 0 :: word "Pair" 7 :: (params ++
      sign "(" 1 :: ([word "Base" 4, sign "[" 8, word "T" 9, sign "]" 10, sign "," 11,
        word "Sized" 4] ++ sign ")" 0 :: sign ":" 1 :: [])) := by decide +kernel
  have hparams : IsParameters params :=
    .some 11 0 (.plain rfl rfl (.plain rfl rfl (.plain rfl rfl (.plain rfl rfl .nil))))
  have hbase := IsEntries.item .empty (IsItem.of_kind (t := word "Base" 4) nofun)
  have hgroup := hbase.item (.group (o := "[") (c := "]") (by decide +kernel) 8 10
    (.plain (t := word "T" 9) rfl rfl .nil))
  have hcomma := IsEntries.comma 11 hgroup
  have hheader : HasForm t.lines 0 5 "Pair" params (some .entry) := by
    refine ⟨by decide +kernel, by unfold NoQuote; decide +kernel, ?_⟩
    rw [htokens]
    exact Struct.isForm_list 0 7 1 0 1 hparams
      (hcomma.item (IsItem.of_kind (t := word "Sized" 4) nofun))
  have hfound : ∃ row ∈ s.rows, ∃ f ∈ Rule.Structs.lineFindings s t.lines row 0,
      f.id = "TRAIT_ADD_COPYABLE" := by decide +kernel
  obtain ⟨row, hrow, f, hf, hid⟩ := hfound
  have hadded : (f.id, (["Copyable"] : List Text)) ∈ additions := by
    rw [hid]
    decide +kernel
  obtain ⟨e, others, t', struct, hedits, -, happly, -, -, hiff⟩ :=
    insertion_form hsize hheader hf hadded
  exact ⟨hsize, hheader, row, hrow, f, hf, hid, e, others, t', hedits, happly,
    hiff.2 ⟨nofun, nofun⟩⟩

/-- **The form is lost** behind a comma at the end of a list: another one follows it. -/
theorem insertion_form_lost :
    let t : Text := "struct Wide(\n    Movable,\n):\n    var x: Int\n\n" ++
      "    fn __copyinit__(out self, existing: Self):\n        self.x = existing.x\n"
    let s := Source.ofText "test.mojo" t false
    HasForm t.lines 0 2 "Wide" [] (some .comma) ∧
      ∃ row ∈ s.rows, ∃ f ∈ Rule.Structs.lineFindings s t.lines row 0,
        f.id = "TRAIT_ADD_COPYABLE" ∧ ∃ e others t', f.edits = e :: others ∧
          Edit.applyAll t [e] = ⟨t', none⟩ ∧
          ¬ ∃ last name params list, HasForm t'.lines 0 last name params list := by
  repeat rw [Text.ofString_ofList]
  intro t s
  have htokens : Block.headerTokens t.lines 0 2 = word "struct" 0 :: word "Wide" 7 :: ([] ++
      sign "(" 11 :: ([word "Movable" 4, sign "," 11] ++ sign ")" 0 :: sign ":" 1 :: [])) := by
    decide +kernel
  have hentry := IsEntries.item .empty (IsItem.of_kind (t := word "Movable" 4) nofun)
  have hcomma : IsEntries .comma [word "Movable" 4, sign "," 11] := .comma 11 hentry
  have hheader : HasForm t.lines 0 2 "Wide" [] (some .comma) := by
    refine ⟨by decide +kernel, by unfold NoQuote; decide +kernel, ?_⟩
    rw [htokens]
    exact Struct.isForm_list 0 7 11 0 1 .none hcomma
  have hfound : ∃ row ∈ s.rows, ∃ f ∈ Rule.Structs.lineFindings s t.lines row 0,
      f.id = "TRAIT_ADD_COPYABLE" ∧ ∃ e ∈ f.edits, f.edits = e :: f.edits.tail ∧
        (Edit.applyAll t [e]).misfit = none ∧
        Block.headerEnd? (Edit.applyAll t [e]).text.lines 0 = some 2 ∧
        Block.headerTokens (Edit.applyAll t [e]).text.lines 0 2 =
          word "struct" 0 :: word "Wide" 7 :: ([] ++ sign "(" 11 :: ([word "Movable" 4,
            sign "," 11] ++ sign "," 0 :: [word "Copyable" 2, sign ")" 10, sign ":" 11])) := by
    decide +kernel
  obtain ⟨row, hrow, f, hf, hid, e, -, hedits, hfits, hend, hnew⟩ := hfound
  generalize happly : Edit.applyAll t [e] = applied at hfits hend hnew
  obtain ⟨t', misfit⟩ := applied
  cases hfits
  refine ⟨hheader, row, hrow, f, hf, hid, e, f.edits.tail, t', hedits, happly, ?_⟩
  rintro ⟨last, name, params, list, h⟩
  obtain rfl : 2 = last := Option.some.inj (hend.symm.trans h.ends)
  have hform := h.form
  rw [hnew] at hform
  exact Struct.not_isForm_adjacent .none hcomma hform

end Traits

end MojoLint
