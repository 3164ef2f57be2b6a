import MojoLint.Proofs.Traits.Grammar
import MojoLint.Traits.Findings

/-!
# New traits in a header

What a finding declares is a text that names traits (`Names`). It becomes a list of its own, or new
entries at the end of a list that there is. Either way code goes between two tokens of the last line
of a header, and the header then declares the new traits as well (`Extension`). That is a matter of
tokens, whatever the lines above hold.
-/

namespace MojoLint

namespace Traits

open Struct (Balanced IsParameters)
open Token (sign word Thinned)

/-! ## The texts that declare traits -/

/-- The findings that declare traits, with the traits. -/
def additions : List (Text × List Text) :=
  [("TRAIT_ADD_COPYABLE_MOVABLE", ["Copyable", "Movable"]), ("TRAIT_ADD_COPYABLE", ["Copyable"]),
   ("TRAIT_ADD_MOVABLE", ["Movable"])]

/-- The text names the traits. -/
structure Names (text : Text) (traits : List Text) : Prop where
  isCode : IsCode text
  ne_nil : text ≠ []
  no_feed : Byte.lf ∉ text
  depth : ∀ d, Block.depthAfter d (Token.ofLine text) = some d
  read : ∀ (c : UInt32) (us : List Token),
    Struct.traitNames 1 none (Token.ofLine text ++ sign ")" c :: us) = traits

theorem names_both : Names "Copyable, Movable" ["Copyable", "Movable"] := by
  have htokens : Token.ofLine "Copyable, Movable" =
      [word "Copyable" 0, sign "," 8, word "Movable" 10] := by decide +kernel
  refine ⟨by unfold IsCode; decide +kernel, by decide +kernel, by decide +kernel, ?_, ?_⟩
  · intro d
    rw [htokens]
    rfl
  · intro c us
    rw [htokens]
    rfl

theorem names_one {trait : Text} (h : trait ∈ (["Copyable", "Movable"] : List Text)) :
    Names trait [trait] := by
  have htokens : ∀ trait ∈ (["Copyable", "Movable"] : List Text),
      Token.ofLine trait = [word trait 0] ∧ (∀ b ∈ trait, Byte.isQuote b = false ∧ b ≠ Byte.hash) ∧
        trait ≠ [] ∧ Byte.lf ∉ trait := by decide +kernel
  obtain ⟨htokens, hcode, hne, hfeed⟩ := htokens trait h
  refine ⟨hcode, hne, hfeed, ?_, ?_⟩
  · intro d
    rw [htokens]
    rfl
  · intro c us
    rw [htokens]
    rfl

theorem names_of_mem_additions {p : Text × List Text} (h : p ∈ additions) :
    Names (List.intercalate ", " p.2) p.2 := by
  have hboth :
      List.intercalate ", " ["Copyable", "Movable"] = Text.ofString "Copyable, Movable" := by
    decide +kernel
  simp only [additions, List.mem_cons, List.not_mem_nil, or_false] at h
  rcases h with rfl | rfl | rfl
  · exact hboth ▸ names_both
  · exact names_one (by decide +kernel)
  · exact names_one (by decide +kernel)

/-- A finding that declares traits starts with their insertion. Its other edits delete. -/
theorem edits_of_mem_findings {source : Source} {struct : Struct} {l : Lifecycle} {f : Finding}
    (h : f ∈ findings source struct l) {added : List Text} (hid : (f.id, added) ∈ additions) :
    ∃ others, f.edits = insertion source struct (List.intercalate ", " added) :: others ∧
      ∀ e ∈ others, e.replacement = [] := by
  have hnone : ∀ p ∈ additions,
      p.1 ≠ "TRAIT_REDUNDANT_COPYINIT" ∧ p.1 ≠ "TRAIT_REDUNDANT_MOVEINIT" := by decide +kernel
  have hsome : ∀ p ∈ additions,
      (p.1 = "TRAIT_ADD_COPYABLE_MOVABLE" → List.intercalate ", " p.2 = "Copyable, Movable") ∧
        (p.1 = "TRAIT_ADD_COPYABLE" → List.intercalate ", " p.2 = "Copyable") ∧
        (p.1 = "TRAIT_ADD_MOVABLE" → List.intercalate ", " p.2 = "Movable") := by decide +kernel
  obtain ⟨hcopyinit, hmoveinit⟩ := hnone _ hid
  obtain ⟨hboth, hcopy, hmove⟩ := hsome _ hid
  have hremoval : ∀ {line name}, (removal source line name).replacement = [] := rfl
  unfold findings at h
  simp only [List.mem_append] at h
  rcases h with (h | h) | h
  · split at h
    · obtain rfl := List.mem_singleton.1 h
      exact absurd rfl hcopyinit
    · cases h
  · split at h
    · obtain rfl := List.mem_singleton.1 h
      exact absurd rfl hmoveinit
    · cases h
  · split at h
    · obtain rfl := List.mem_singleton.1 h
      rw [hboth rfl]
      exact ⟨_, rfl, by simp [hremoval]⟩
    · split at h
      · obtain rfl := List.mem_singleton.1 h
        rw [hcopy rfl]
        exact ⟨_, rfl, by simp [hremoval]⟩
      · split at h
        · obtain rfl := List.mem_singleton.1 h
          rw [hmove rfl]
          exact ⟨_, rfl, by simp [hremoval]⟩
        · cases h

theorem exists_insertion_of_mem_findings {source : Source} {struct : Struct} {l : Lifecycle}
    {f : Finding} (h : f ∈ findings source struct l) {added : List Text}
    (hid : (f.id, added) ∈ additions) :
    ∃ text others, Names text added ∧ f.edits = insertion source struct text :: others ∧
      ∀ e ∈ others, e.replacement = [] := by
  obtain ⟨others, hedits, hothers⟩ := edits_of_mem_findings h hid
  exact ⟨_, others, names_of_mem_additions hid, hedits, hothers⟩

/-! ## New traits in a header -/

/-- Code `x` between the parts `p` and `q` of the last line of a header, whose lines above hold the
tokens `front`, declares the struct `name` with these traits. -/
structure Extension (front : List Token) (p x q name : Text) (traits : List Text) : Prop where
  isCode : IsCode x
  no_feed : Byte.lf ∉ x
  ne_nil : x ≠ []
  apart_front : Apart p x
  apart_back : Apart x (Token.uncomment q)
  depth : ∀ d, Block.depthAfter d (Token.ofLine x) = some d
  read : ∃ ts us a b tail, Token.Cut p q ts us ∧ us ≠ [] ∧
    Thinned (front ++ (ts ++ (Token.ofLine x ++ us))) (word "struct" a :: word name b :: tail) ∧
    ∀ vs, Thinned vs tail → Struct.traitsOf vs = traits

theorem paren_bytes : ("(" : Text) = [40] ∧ (")" : Text) = [41] := by decide +kernel

theorem isCode_paren : IsCode "(" ∧ IsCode ")" := by
  unfold IsCode
  decide +kernel

theorem isCode_comma : IsCode ", " := by
  unfold IsCode
  decide +kernel

theorem isCode_enclosed {text : Text} (h : IsCode text) : IsCode ("(" ++ text ++ ")") :=
  (isCode_paren.1.append h).append isCode_paren.2

theorem no_feed_enclosed {text : Text} (h : Byte.lf ∉ text) : Byte.lf ∉ "(" ++ text ++ ")" := by
  obtain ⟨hopen, hclose⟩ := paren_bytes
  rw [hopen, hclose]
  simpa using ⟨by decide, h, by decide⟩

theorem no_feed_separated {text : Text} (h : Byte.lf ∉ text) : Byte.lf ∉ ", " ++ text :=
  List.not_mem_append (by decide +kernel) h

theorem apart_enclosed (p text : Text) : Apart p ("(" ++ text ++ ")") := by
  rw [paren_bytes.1]
  exact apart_of_head rfl

theorem enclosed_apart (text u : Text) : Apart ("(" ++ text ++ ")") u := by
  left
  rw [paren_bytes.2, List.getLast?_concat]
  rintro _ ⟨⟩
  rfl

theorem apart_separated (p text : Text) : Apart p (", " ++ text) := by
  have hcomma : (", " : Text) = [44, 32] := by decide +kernel
  rw [hcomma]
  exact apart_of_head rfl

theorem scan_sign (pos : Nat) {s : Text} (hs : s ∈ Token.signs) :
    Token.scan pos s = [sign s pos.toUInt32] := by
  have hone : ∀ s ∈ Token.signs, ∃ b ∈ s, s = [b] ∧ Byte.isGap b = false ∧
      Token.lexeme b [] = (.punct, 0) := by decide +kernel
  obtain ⟨b, -, rfl, hgap, hlex⟩ := hone s hs
  rw [Token.scan_lexeme pos [] (by rw [hgap]; exact Bool.false_ne_true), hlex, List.drop_nil,
    Token.scan_nil]
  rfl

theorem scan_separated (pos : Nat) {text : Text} (h : IsCode text) :
    ∃ a, Token.scan pos (", " ++ text) = sign "," a :: Token.scan (pos + 2) text := by
  have hcomma : (", " : Text) = "," ++ [Byte.space] := by decide +kernel
  have happ : Apart ", " text := .inl (by decide +kernel)
  have hspace : Token.scan (pos + ("," : Text).length) [Byte.space] = [] := by
    rw [Token.scan_gap _ _ rfl, Token.scan_nil]
  have hmark : IsCode "," := isCode_comma.of_sublist (hcomma ▸ List.sublist_append_left _ _)
  refine ⟨pos.toUInt32, ?_⟩
  rw [Token.scan_append pos isCode_comma h.noQuote happ, hcomma,
    Token.scan_append pos hmark (by unfold NoQuote; decide +kernel) (apart_of_head rfl), hspace,
    scan_sign pos (by decide +kernel)]
  rfl

theorem scan_enclosed (pos : Nat) {text : Text} (h : IsCode text) :
    ∃ a b, Token.scan pos ("(" ++ text ++ ")") =
      sign "(" a :: (Token.scan (pos + 1) text ++ [sign ")" b]) := by
  obtain ⟨hopen, hclose⟩ := isCode_paren
  have hfront : Apart "(" text := .inl (by decide +kernel)
  have hback : Apart ("(" ++ text) ")" := .inr (by decide +kernel)
  refine ⟨pos.toUInt32, (pos + (("(" : Text) ++ text).length).toUInt32, ?_⟩
  rw [Token.scan_append pos (hopen.append h) hclose.noQuote hback,
    Token.scan_append pos hopen h.noQuote hfront, scan_sign pos (s := "(") (by decide +kernel),
    scan_sign _ (s := ")") (by decide +kernel)]
  rfl

theorem thinned_separated {text : Text} (h : IsCode text) :
    Thinned (Token.ofLine (", " ++ text)) (sign "," 0 :: Token.ofLine text) := by
  obtain ⟨a, hscan⟩ := scan_separated 0 h
  rw [Token.ofLine, hscan]
  exact .keep rfl rfl (Token.thinned_scan _ 0 text)

theorem thinned_enclosed {text : Text} (h : IsCode text) :
    Thinned (Token.ofLine ("(" ++ text ++ ")"))
      (sign "(" 0 :: (Token.ofLine text ++ [sign ")" 0])) := by
  obtain ⟨a, b, hscan⟩ := scan_enclosed 0 h
  rw [Token.ofLine, hscan]
  exact .keep rfl rfl ((Token.thinned_scan _ 0 text).append (.keep rfl rfl .nil))

section

variable {name text : Text} {traits : List Text} {front ts us params : List Token} {p q : Text}
  {a b c : UInt32}

/-- A header without a list gets one. -/
theorem extension_front (hnames : Names text traits) (hparams : IsParameters params)
    (hcut : Token.Cut p q ts (sign ":" c :: us))
    (hfront : front ++ ts = word "struct" a :: word name b :: params) :
    Extension front p ("(" ++ text ++ ")") q name traits := by
  have htokens := thinned_enclosed hnames.isCode
  refine ⟨isCode_enclosed hnames.isCode, no_feed_enclosed hnames.no_feed, ?_, apart_enclosed p text,
    enclosed_apart text _, ?_, ts, sign ":" c :: us, a, b,
    params ++ sign "(" 0 :: (Token.ofLine text ++ sign ")" 0 :: sign ":" c :: us), hcut,
    List.cons_ne_nil _ _, ?_, ?_⟩
  · rw [paren_bytes.1]
    exact List.cons_ne_nil _ _
  · intro d
    have hgroup : Block.depthAfter d (sign "(" 0 :: (Token.ofLine text ++ [sign ")" 0])) =
        Block.depthAfter (d + 1) (Token.ofLine text ++ [sign ")" 0]) := rfl
    rw [Struct.depthAfter_thinned htokens, hgroup, Block.depthAfter_append, hnames.depth,
      Option.bind_some]
    rfl
  · rw [← List.append_assoc, hfront]
    have := (Thinned.refl (word "struct" a :: word name b :: params)).append
      (htokens.append (Thinned.refl (sign ":" c :: us)))
    simpa using this
  · intro vs hvs
    rw [Struct.traitsOf_thinned hparams (.inl rfl) 0 hvs, if_pos rfl]
    exact hnames.read 0 (sign ":" c :: us)

theorem apart_close (hq : ∃ rest, Token.uncomment q = ")" ++ rest) (x : Text) :
    Apart x (Token.uncomment q) := by
  obtain ⟨rest, hrest⟩ := hq
  rw [hrest, paren_bytes.2]
  exact apart_of_head rfl

/-- A header with an empty list gets entries. -/
theorem extension_empty {d : UInt32} (hnames : Names text traits) (hparams : IsParameters params)
    (hcut : Token.Cut p q ts (sign ")" d :: us))
    (hfront : front ++ ts = word "struct" a :: word name b :: (params ++ [sign "(" c]))
    (hapart : Apart p text) (hq : ∃ rest, Token.uncomment q = ")" ++ rest) :
    Extension front p text q name traits := by
  refine ⟨hnames.isCode, hnames.no_feed, hnames.ne_nil, hapart, apart_close hq _, hnames.depth, ts,
    sign ")" d :: us, a, b, params ++ sign "(" c :: (Token.ofLine text ++ sign ")" d :: us), hcut,
    List.cons_ne_nil _ _, ?_, ?_⟩
  · rw [← List.append_assoc, hfront]
    simpa using Thinned.refl _
  · intro vs hvs
    rw [Struct.traitsOf_thinned hparams (.inl rfl) c hvs, if_pos rfl]
    exact hnames.read d us

/-- A header with entries gets more of them, behind a comma. -/
theorem extension_entries {content : List Token} {said : List Text} {last : Option Text}
    {d : UInt32} (hnames : Names text traits) (hparams : IsParameters params)
    (hcut : Token.Cut p q ts (sign ")" d :: us))
    (hfront : front ++ ts = word "struct" a :: word name b :: (params ++ sign "(" c :: content))
    (hq : ∃ rest, Token.uncomment q = ")" ++ rest)
    (hread : ∀ vs, Struct.traitNames 1 none (content ++ vs) = said ++ Struct.traitNames 1 last vs) :
    Extension front p (", " ++ text) q name (said ++ last.toList ++ traits) := by
  have htokens := thinned_separated hnames.isCode
  refine ⟨isCode_comma.append hnames.isCode, no_feed_separated hnames.no_feed,
    List.append_ne_nil_of_right_ne_nil _ hnames.ne_nil, apart_separated p text, apart_close hq _,
    ?_, ts, sign ")" d :: us, a, b,
    params ++ sign "(" c :: (content ++ (sign "," 0 :: Token.ofLine text ++ sign ")" d :: us)),
    hcut, List.cons_ne_nil _ _, ?_, ?_⟩
  · intro n
    rw [Struct.depthAfter_thinned htokens]
    exact hnames.depth n
  · rw [← List.append_assoc, hfront]
    have hnew := htokens.append (Thinned.refl (sign ")" d :: us))
    have hold := Thinned.refl (word "struct" a :: word name b :: (params ++ sign "(" c :: content))
    simpa using hold.append hnew
  · intro vs hvs
    have hlist : Struct.traitNames 1 last
        (sign "," 0 :: (Token.ofLine text ++ sign ")" d :: us)) =
          last.toList ++ Struct.traitNames 1 none (Token.ofLine text ++ sign ")" d :: us) := rfl
    rw [Struct.traitsOf_thinned hparams (.inl rfl) c hvs, if_pos rfl, hread, List.cons_append,
      hlist, hnames.read, List.append_assoc]

/-- A header with a list gets new entries at its end. -/
theorem extension_list {content : List Token} {d : UInt32} (hnames : Names text traits)
    (hparams : IsParameters params) (inner : Balanced content)
    (first : ∀ t ∈ content.head?, t.kind = .ident)
    (hcut : Token.Cut p q ts (sign ")" d :: us))
    (hfront : front ++ ts = word "struct" a :: word name b :: (params ++ sign "(" c :: content))
    (hapart : content = [] → Apart p text) (hq : ∃ rest, Token.uncomment q = ")" ++ rest) :
    let old := Struct.traitNames 1 none (content ++ sign ")" d :: us)
    Extension front p ((if old.isEmpty then [] else ", ") ++ text) q name (old ++ traits) := by
  intro old
  by_cases hempty : content = []
  · subst hempty
    exact extension_empty hnames hparams hcut hfront (hapart rfl) hq
  · obtain ⟨said, last, hsome, hread⟩ := inner.traitNames_list first
    have hold : old = said ++ last.toList := hread _
    have hne : old.isEmpty = false := by
      rw [hold, List.isEmpty_eq_false_iff]
      exact hsome hempty
    rw [hne, if_neg Bool.false_ne_true, hold]
    exact extension_entries hnames hparams hcut hfront hq hread

end

end Traits

end MojoLint
