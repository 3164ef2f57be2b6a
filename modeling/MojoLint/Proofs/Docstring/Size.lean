import Mathlib.Algebra.Order.BigOperators.Group.List
import Mathlib.Algebra.Order.Group.Nat
import MojoLint.Proofs.Block.Reading
import MojoLint.Proofs.Docstring.Verdict
import MojoLint.Proofs.Token.CodeView

/-!
# The size of a stub

A stub has no more lines than the header that it is made from has bytes (`length_stubLines_le`).
Counted are the bytes that are no gaps (`Text.solid`): a header text has no more of them than the
lines of the header, as it leaves out comments and the contents of strings and puts in spaces, and
the names of a signature are different tokens of it.
-/

namespace MojoLint

/-! ## Bytes that are no gaps -/

/-- The number of bytes that are no gaps. -/
def Text.solid (t : Text) : Nat := t.countP fun b => !Byte.isGap b

theorem Text.solid_append (t u : Text) : solid (t ++ u) = solid t + solid u := List.countP_append

theorem Text.solid_le_of_sublist {t u : Text} (h : List.Sublist t u) : solid t ≤ solid u :=
  h.countP_le

theorem Text.solid_lt_length {t : Text} {b : UInt8} (hb : b ∈ t) (hgap : Byte.isGap b = true) :
    solid t < t.length := by
  apply Nat.lt_of_le_of_ne List.countP_le_length
  intro hall
  have := List.countP_eq_length.1 hall b hb
  rw [hgap] at this
  cases this

theorem Text.solid_intercalate (ts : List Text) :
    solid (List.intercalate " " ts) = (ts.map solid).sum := by
  have hspace : solid " " = 0 := rfl
  induction ts with
  | nil => rfl
  | cons t ts ih =>
    cases ts with
    | nil => rw [List.intercalate_singleton, List.map_singleton, List.sum_singleton]
    | cons u us =>
      rw [List.intercalate_cons_cons, solid_append, solid_append, hspace, ih, Nat.add_zero]
      rfl

namespace Token

/-- The number of bytes of a token that are no gaps. -/
def weight (t : Token) : Nat := Text.solid t.text

/-- The bytes of all tokens are bytes of the line. -/
theorem Laid.total_weight_le {pos : Nat} {line : Text} {ts : List Token} (h : Laid pos line ts) :
    (ts.map weight).sum ≤ Text.solid line := by
  induction h with
  | nil => exact Nat.zero_le _
  | @cons pos line gap rest t ts bytes between column nonempty later ih =>
    rw [List.map_cons, List.sum_cons, weight, bytes, Text.solid_append, Text.solid_append]
    omega

theorem weight_pos_of_mem_scan {pos : Nat} {line : Text} {t : Token} (h : t ∈ scan pos line) :
    0 < t.weight := by
  obtain ⟨b, rest, -, hgap, -, htext⟩ := exists_lexeme_of_mem_scan h
  rw [weight, htext]
  exact List.countP_pos_iff.2 ⟨b, List.mem_cons_self, by simp [hgap]⟩

end Token

namespace Docstring

/-! ## Lines of a stub and tokens of its header -/

/-- The names of the arguments are different tokens, in front of what declares the result. -/
theorem length_argumentNames_le {ts : List Token} (h : ∀ t ∈ ts, 0 < t.weight) (depth : Nat)
    (expecting : Bool) :
    (argumentNames depth expecting ts).1.length +
        ((argumentNames depth expecting ts).2.map Token.weight).sum ≤
      (ts.map Token.weight).sum := by
  induction ts generalizing depth expecting with
  | nil => exact Nat.le_refl _
  | cons t ts ih =>
    obtain ⟨ht, hrest⟩ := List.forall_mem_cons.1 h
    have hih := ih hrest
    have hlater := fun d e => Nat.le_trans (hih d e) (Nat.le_add_left _ t.weight)
    rw [List.map_cons, List.sum_cons]
    unfold argumentNames
    split
    · exact hlater _ _
    · split
      · split
        · rw [List.length_nil, Nat.zero_add]
          exact Nat.le_add_left _ _
        · exact hlater _ _
      · split
        · exact hlater _ _
        · split
          · have := hih depth false
            simp only
            split
            · omega
            · rw [List.length_cons]
              omega
          · exact hlater _ _

theorem argumentNames_suffix (depth : Nat) (expecting : Bool) (ts : List Token) :
    (argumentNames depth expecting ts).2 <:+ ts := by
  induction ts generalizing depth expecting with
  | nil => exact List.suffix_rfl
  | cons t ts ih =>
    have hlater := fun d e => (ih d e).trans (List.suffix_cons t ts)
    unfold argumentNames
    split
    · exact hlater _ _
    · split
      · split
        · exact List.suffix_cons t ts
        · exact hlater _ _
      · split
        · exact hlater _ _
        · split <;> exact hlater _ _

theorem three_le_of_declaresResult {ts : List Token} (h : ∀ t ∈ ts, 0 < t.weight)
    (hresult : declaresResult ts = true) : 3 ≤ (ts.map Token.weight).sum := by
  induction ts with
  | nil => cases hresult
  | cons t ts ih =>
    obtain ⟨ht, hrest⟩ := List.forall_mem_cons.1 h
    rw [List.map_cons, List.sum_cons]
    unfold declaresResult at hresult
    split at hresult
    · rename_i harrow
      simp only [Token.isPunct, Bool.and_eq_true, beq_iff_eq] at harrow
      have hweight : t.weight = 2 := by
        rw [Token.weight, harrow.2]
        rfl
      cases ts with
      | nil => cases hresult
      | cons u us =>
        have := hrest u List.mem_cons_self
        rw [List.map_cons, List.sum_cons]
        omega
    · have := ih hrest hresult
      omega

theorem length_argumentLines (pad : Text) (names : List Text) :
    (argumentLines pad names).length = if names = [] then 0 else names.length + 2 := by
  cases names with
  | nil => rfl
  | cons name names => simp [argumentLines]

theorem length_resultLines (pad : Text) (hasResult : Bool) :
    (resultLines pad hasResult).length = if hasResult then 3 else 0 := by
  cases hasResult <;> rfl

theorem Signature.length_stubLines (s : Signature) (indent : UInt32) :
    (s.stubLines indent).length =
      (if s.arguments = [] then 0 else s.arguments.length + 2) +
        (if s.hasResult then 3 else 0) + 2 := by
  rw [stubLines, sectionLines, List.length_cons, List.length_append, List.length_append,
    length_argumentLines, length_resultLines]
  rfl

/-- A stub has one line more than its signature at the most. -/
theorem Signature.length_stubLines_le_tokens {tokens : List Token} {s : Signature}
    (h : ∀ t ∈ tokens, 0 < t.weight) (hs : ofTokens? tokens = some s) (indent : UInt32) :
    (s.stubLines indent).length ≤ (tokens.map Token.weight).sum + 1 := by
  match tokens, hs with
  | keyword :: name :: rest, hs =>
    obtain ⟨hkeyword, hbehind⟩ := List.forall_mem_cons.1 h
    obtain ⟨hname, hrest⟩ := List.forall_mem_cons.1 hbehind
    have hsuffix := Declaration.skipParameters_suffix rest
    have htotal := (hsuffix.sublist.map Token.weight).sum_le_sum (by simp)
    rw [length_stubLines, List.map_cons, List.map_cons, List.sum_cons, List.sum_cons]
    have hweights : ∀ t ∈ Declaration.skipParameters rest, 0 < t.weight := fun t ht =>
      hrest t (hsuffix.subset ht)
    have hresult : ∀ {ts}, (∀ t ∈ ts, 0 < t.weight) →
        (if declaresResult ts = true then 3 else 0) ≤ (ts.map Token.weight).sum := by
      intro ts hts
      split
      · rename_i hdeclares
        exact three_le_of_declaresResult hts hdeclares
      · exact Nat.zero_le _
    rw [ofTokens?] at hs
    cases hs
    simp only
    generalize Declaration.skipParameters rest = behind at htotal hweights
    cases behind with
    | nil =>
      change 0 + 0 + 2 ≤ _
      omega
    | cons t ts =>
      obtain ⟨ht, hts⟩ := List.forall_mem_cons.1 hweights
      simp only
      split
      · -- the bracket is a token as well
        have hnames := length_argumentNames_le hts 1 true
        have hafter := hresult fun t ht => hts t ((argumentNames_suffix 1 true ts).subset ht)
        rw [List.map_cons, List.sum_cons] at htotal
        split <;> omega
      · have hafter := hresult hweights
        change 0 + (if declaresResult (t :: ts) = true then 3 else 0) + 2 ≤ _
        omega

/-! ## The header and its lines -/

theorem solid_codeOf_le {line : Text} (hsize : line.length < UInt32.size) :
    Text.solid (Token.codeOf line) ≤ line.length :=
  Nat.le_trans (Text.solid_le_of_sublist (Token.codeOf_sublist hsize)) List.countP_le_length

/-- A gap sets the keyword of a function apart from its name. -/
theorem solid_codeOf_lt {line name : Text} (hsize : line.length < UInt32.size)
    (hname : Declaration.functionName? line = some name) :
    Text.solid (Token.codeOf line) < line.length := by
  obtain ⟨gap, t, hcodeOf, -, hhead⟩ := Declaration.exists_head_codeOf hname hsize
  have hle := (Token.codeOf_sublist hsize).length_le
  cases hhead with
  | @intro keyword between _ rest c _ hne hgap =>
    obtain ⟨b, more, rfl⟩ := List.exists_cons_of_ne_nil hne
    have hb : b ∈ Token.codeOf line := by
      rw [hcodeOf]
      simp
    exact Nat.lt_of_lt_of_le (Text.solid_lt_length hb (hgap b List.mem_cons_self)) hle

section

variable {lines : List Text} {i last : Nat} {line name : Text}

theorem solid_headerText_lt (hsize : ∀ line ∈ lines, line.length < UInt32.size)
    (hline : lines[i]? = some line) (hend : Block.headerEnd? lines i = some last)
    (hname : Declaration.functionName? line = some name) :
    Text.solid (Block.headerText lines i) < (lines.map List.length).sum := by
  obtain ⟨hle, hlt⟩ := Block.headerEnd?_spec hend
  have hheader := Block.headerLines_eq_cons hle hlt
  rw [hline, Option.getD_some] at hheader
  have htext : Block.headerText lines i =
      Text.trim (List.intercalate " " ((Block.headerLines lines i last).map Token.codeOf)) := by
    rw [Block.headerText, hend]
    rfl
  have hsub : List.Sublist (Block.headerLines lines i last) lines :=
    (List.take_sublist _ _).trans (List.drop_sublist _ _)
  calc Text.solid (Block.headerText lines i)
      ≤ (((Block.headerLines lines i last).map Token.codeOf).map Text.solid).sum := by
        rw [htext, ← Text.solid_intercalate]
        exact Text.solid_le_of_sublist
          ((Text.trimRight_sublist _).trans (List.dropWhile_sublist Byte.isSpace))
    _ < ((Block.headerLines lines i last).map List.length).sum := by
        rw [List.map_map]
        exact List.sum_lt_sum _ _ (fun l hl => solid_codeOf_le (hsize l (hsub.subset hl)))
          ⟨line, hheader ▸ List.mem_cons_self,
            solid_codeOf_lt (hsize line (List.mem_of_getElem? hline)) hname⟩
    _ ≤ (lines.map List.length).sum := (hsub.map _).sum_le_sum (by simp)

/-- **A stub has no more lines than the lines of its header have bytes.** -/
theorem length_stubLines_le {s : Signature} (hsize : ∀ line ∈ lines, line.length < UInt32.size)
    (hline : lines[i]? = some line) (hend : Block.headerEnd? lines i = some last)
    (hname : Declaration.functionName? line = some name)
    (hs : Signature.ofTokens? (Token.ofLine (Block.headerText lines i)) = some s)
    (indent : UInt32) :
    (s.stubLines indent).length ≤ (lines.map List.length).sum :=
  calc (s.stubLines indent).length
      ≤ ((Token.ofLine (Block.headerText lines i)).map Token.weight).sum + 1 :=
        Signature.length_stubLines_le_tokens (fun _ ht => Token.weight_pos_of_mem_scan ht) hs indent
    _ ≤ Text.solid (Block.headerText lines i) + 1 :=
        Nat.add_le_add_right (Token.laid_ofLine _).total_weight_le 1
    _ ≤ (lines.map List.length).sum := solid_headerText_lt hsize hline hend hname

end

end Docstring

end MojoLint
