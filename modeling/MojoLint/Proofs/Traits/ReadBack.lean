import MojoLint.Proofs.Traits.Place

/-!
# Reading declared traits back

The edit that declares traits is placed by a walk through the rows of a header, and the traits of a
struct are read off the header text. The two agree (`insertion_read_back`): after the edit the
header ends where it ended, and reads as before with the new traits behind the old ones. The walk
cuts the last line of the header where the reader wants its new tokens (`ExtendsHeader`).
-/

namespace MojoLint

namespace Struct

/-- The header of the struct `name` takes up the lines from `i` to `last`, without any quotes. -/
structure HasHeader (lines : List Text) (i last : Nat) (name : Text) : Prop where
  ends : Block.headerEnd? lines i = some last
  noQuote : ∀ line ∈ Block.headerLines lines i last, NoQuote line
  form : IsHeader name (Block.headerTokens lines i last)

end Struct

namespace Traits

open Struct (Balanced IsParameters HasHeader)
open Token (sign word Thinned)

section

variable {path t : Text} {checkDocs : Bool} {i last : Nat} {name text : Text} {traits : List Text}

/-- The edit puts code into the last line of the header on line `i`, and the header then declares
the struct with these traits. -/
def ExtendsHeader (t : Text) (i last : Nat) (e : Edit) (name : Text) (traits : List Text) : Prop :=
  ∃ above p q front us, PutsInto t i last e above p q front us ∧
    Extension (above.flatMap Token.codeTokens) p e.replacement q name traits

theorem extendsHeader_front (path : Text) (checkDocs : Bool)
    (hend : Block.headerEnd? t.lines i = some last)
    (hquote : ∀ line ∈ Block.headerLines t.lines i last, NoQuote line) (hname : name ≠ "struct")
    {params rest : List Token} {a b c : UInt32} (hparams : IsParameters params)
    (htokens : Block.headerTokens t.lines i last =
      word "struct" a :: word name b :: (params ++ sign ":" c :: rest))
    (hnames : Names text traits) (old : List Text) :
    ExtendsHeader t i last (insertion (Source.ofText path t checkDocs) ⟨name, old, i⟩ text) name
      traits := by
  obtain ⟨hreplacement, above, p, q, hputs⟩ := exists_putsInto_front path checkDocs hend hquote
    (fun h => absurd h hname) hparams htokens old text
  obtain ⟨ts, hcut, hfront⟩ := hputs.cut
  refine ⟨above, p, q, _, _, hputs, ?_⟩
  rw [hreplacement]
  exact extension_front hnames hparams hcut hfront

theorem extendsHeader_list (path : Text) (checkDocs : Bool)
    (hend : Block.headerEnd? t.lines i = some last)
    (hquote : ∀ line ∈ Block.headerLines t.lines i last, NoQuote line)
    {params content rest : List Token} {a b c d : UInt32} {colon : Token}
    (hparams : IsParameters params) (inner : Balanced content)
    (first : ∀ t ∈ content.head?, t.kind = .ident) (hcolon : Block.depthAfter 0 [colon] = none)
    (htokens : Block.headerTokens t.lines i last =
      word "struct" a :: word name b :: (params ++ sign "(" c :: content) ++ [sign ")" d] ++
        colon :: rest)
    (hnames : Names text traits) :
    let old := Struct.traitNames 1 none (content ++ sign ")" d :: colon :: rest)
    ExtendsHeader t i last (insertion (Source.ofText path t checkDocs) ⟨name, old, i⟩ text) name
      (old ++ traits) := by
  intro old
  obtain ⟨hreplacement, above, p, q, hputs, hq, hapart⟩ :=
    exists_putsInto_list path checkDocs hend hquote hparams inner hcolon htokens old text
  obtain ⟨ts, hcut, hfront⟩ := hputs.cut
  refine ⟨above, p, q, _, _, hputs, ?_⟩
  rw [hreplacement]
  refine extension_list hnames hparams inner first hcut hfront ?_ hq
  rintro rfl
  refine hapart (fun u hu => ?_) text
  -- the token before an empty place is the parenthesis that opens the list
  rw [← List.cons_append, ← List.cons_append, List.getLast?_concat] at hu
  cases hu
  exact ⟨40, by rw [sign, paren_bytes.1]; rfl, rfl⟩

/-- **An insertion of traits** puts code into the last line of the header that declares them behind
the old ones. -/
theorem extendsHeader_insertion (path : Text) (checkDocs : Bool) (hsize : t.length < UInt32.size)
    (hheader : HasHeader t.lines i last name) {struct : Struct}
    (hstruct : Struct.at? t.lines i = some struct) (hnames : Names text traits) :
    struct.name = name ∧
      ExtendsHeader t i last (insertion (Source.ofText path t checkDocs) struct text) name
        (struct.traits ++ traits) := by
  obtain ⟨hend, hquote, hform⟩ := hheader
  generalize htokens : Block.headerTokens t.lines i last = tokens at hform
  cases hform with
  | @intro params list rest a b c name_ne parameters list_form =>
    cases list_form with
    | none =>
      obtain rfl := Struct.eq_of_at? hsize hend hquote hstruct parameters (.inr rfl) htokens
      rw [if_neg (by decide +kernel)]
      exact ⟨rfl,
        extendsHeader_front path checkDocs hend hquote name_ne parameters htokens hnames []⟩
    | @some content a' b' inner first =>
      have hgroup : Block.headerTokens t.lines i last = word "struct" a :: word name b ::
          (params ++ sign "(" a' :: (content ++ sign ")" b' :: sign ":" c :: rest)) := by
        simpa using htokens
      obtain rfl := Struct.eq_of_at? hsize hend hquote hstruct parameters (.inl rfl) hgroup
      rw [if_pos rfl]
      exact ⟨rfl, extendsHeader_list path checkDocs hend hquote parameters inner first rfl
        (by simpa using htokens) hnames⟩

/-! ## The text after the edit -/

/-- The lines of the text after the edit. -/
theorem ExtendsHeader.exists_lines (hsize : t.length < UInt32.size) {e : Edit}
    (h : ExtendsHeader t i last e name traits) :
    ∃ t' above p q, Edit.applyAll t [e] = ⟨t', none⟩ ∧
      Block.headerLines t.lines i last = above ++ [p ++ q] ∧ i + above.length = last ∧
      t.lines[last]? = some (p ++ q) ∧
      Extension (above.flatMap Token.codeTokens) p e.replacement q name traits ∧
      t'.lines = t.lines.set last (p ++ (e.replacement ++ q)) := by
  obtain ⟨above, p, q, front, us, hputs, hext⟩ := h
  obtain ⟨t', happly, hline, hnew⟩ := hputs.exists_lines hsize hext.no_feed
  exact ⟨t', above, p, q, happly, hputs.lines, hputs.length, hline, hext, hnew⟩

/-- The header after the edit ends where it ended. -/
theorem Extension.headerEnd? {front : List Token} {p x q : Text}
    (h : Extension front p x q name traits) {lines : List Text}
    (hend : Block.headerEnd? lines i = some last) (hline : lines[last]? = some (p ++ q)) :
    Block.headerEnd? (lines.set last (p ++ (x ++ q))) i = some last := by
  have ⟨ts, us, _, _, _, hcut, _⟩ := h.read
  refine Block.headerEnd?_set hend hline fun d hd => ?_
  rw [hcut.tokens, Block.depthAfter_append] at hd
  rw [Struct.depthAfter_thinned (hcut.insert h.isCode h.ne_nil h.apart_front h.apart_back),
    Block.depthAfter_append, ← hd]
  congr 1
  funext e
  rw [Block.depthAfter_append, h.depth, Option.bind_some]

/-- The header after the edit declares the struct with the new traits. -/
theorem Extension.at? {above : List Text} {p x q : Text}
    (h : Extension (above.flatMap Token.codeTokens) p x q name traits) {lines : List Text}
    (hend : Block.headerEnd? lines i = some last)
    (hlines : Block.headerLines lines i last = above ++ [p ++ q])
    (hlast : i + above.length = last) (hline : lines[last]? = some (p ++ q))
    (hquote : ∀ line ∈ Block.headerLines lines i last, NoQuote line)
    (hfirst : 2 ≤ (Token.codeTokens ((lines[i]?).getD [])).length)
    (hsize : ∀ line ∈ lines.set last (p ++ (x ++ q)), line.length < UInt32.size) :
    Struct.at? (lines.set last (p ++ (x ++ q))) i = some ⟨name, traits, i⟩ := by
  obtain ⟨ts, us, a, b, tail, hcut, -, htokens, hread⟩ := h.read
  have hend' := h.headerEnd? hend hline
  have hlines' := Block.headerLines_set hlines hlast (p ++ (x ++ q))
  have hnew : Thinned (Block.headerTokens (lines.set last (p ++ (x ++ q))) i last)
      (word "struct" a :: word name b :: tail) := by
    rw [Block.headerTokens, hlines', List.flatMap_append, List.flatMap_singleton]
    exact ((Thinned.refl _).append
      (hcut.insert h.isCode h.ne_nil h.apart_front h.apart_back)).trans htokens
  have hquote' : ∀ line ∈ Block.headerLines (lines.set last (p ++ (x ++ q))) i last,
      NoQuote line := by
    intro line hmem
    rw [hlines', List.mem_append, List.mem_singleton] at hmem
    rcases hmem with hmem | rfl
    · exact hquote line (hlines ▸ List.mem_append_left _ hmem)
    · exact hcut.noQuote_insert h.isCode
  obtain ⟨vs, hvs, hat⟩ := Struct.exists_at?_of_thinned hend' hquote'
    (Block.length_lt_of_mem_headerLines hsize) hnew fun hlt => by
    rwa [List.getElem?_set_ne (Nat.ne_of_gt hlt)]
  rw [hat, hread vs hvs]

/-- **Declared traits are read back.** Take a struct whose header has the usual form, and a finding
that declares traits for it, on whatever row. Carrying out the first edit of the finding, the only
one that inserts, leaves the end of the header on its line. The struct then has the new traits
behind its old ones, as long as words can count the bytes of the new text. -/
theorem insertion_read_back (hsize : t.length < UInt32.size)
    (hheader : HasHeader t.lines i last name) {row : Row} {f : Finding}
    (hf : f ∈ Rule.Structs.lineFindings (Source.ofText path t checkDocs) t.lines row i)
    {added : List Text} (hid : (f.id, added) ∈ additions) :
    ∃ e others t' old, f.edits = e :: others ∧ (∀ o ∈ others, o.replacement = []) ∧
      Edit.applyAll t [e] = ⟨t', none⟩ ∧ Block.headerEnd? t'.lines i = some last ∧
      Struct.at? t.lines i = some ⟨name, old, i⟩ ∧
      (t'.length < UInt32.size →
        let after : Struct := ⟨name, old ++ added, i⟩
        Struct.at? t'.lines i = some after ∧
          (("Copyable" : Text) ∈ added → after.isCopyable = true) ∧
          (("Movable" : Text) ∈ added → after.isMovable = true)) := by
  obtain ⟨struct, l, hstruct, hmem⟩ := exists_struct_of_addition hf hid
  obtain ⟨text, others, hnames, hedits, hothers⟩ := exists_insertion_of_mem_findings hmem hid
  obtain ⟨hname, hextends⟩ := extendsHeader_insertion path checkDocs hsize hheader hstruct hnames
  obtain ⟨t', above, p, q, happly, hlines, hlast, hline, hext, hnew⟩ := hextends.exists_lines hsize
  have hold : struct = ⟨name, struct.traits, i⟩ := by
    rw [← hname, ← Struct.header_of_at? hstruct]
  refine ⟨_, others, t', struct.traits, hedits, hothers, happly,
    hnew ▸ hext.headerEnd? hheader.ends hline, hold ▸ hstruct, ?_⟩
  intro hsize'
  obtain ⟨k, n, more, hcode, -⟩ := Struct.at?_eq_some_iff.1 hstruct
  have hat := hext.at? hheader.ends hlines hlast hline hheader.noQuote
    (by rw [hcode]; exact Nat.le_add_left 2 more.length)
    (hnew ▸ fun line => Text.length_lt_of_mem_lines hsize')
  refine ⟨hnew ▸ hat, ?_, ?_⟩ <;>
  · intro hadded
    exact List.contains_iff_mem.2 (List.mem_append_right _ hadded)

end

/-- A header over several lines, with comments and a trailing comma. -/
theorem insertion_read_back_multiline :
    let t : Text := "struct Pair[\n    T: Movable,  # the item\n](\n    Base[T] &\n" ++
      "    Sized,  # traits\n):\n    var x: T\n" ++
      "    fn __copyinit__(out self, other: Self):\n        self.x = other.x\n"
    let s := Source.ofText "a.mojo" t false
    t.length < UInt32.size ∧ HasHeader t.lines 0 5 "Pair" ∧
      ∃ row ∈ s.rows, ∃ f ∈ Rule.Structs.lineFindings s t.lines row 0,
        f.id = "TRAIT_ADD_COPYABLE" ∧ ∃ e others t', f.edits = e :: others ∧
          Edit.applyAll t [e] = ⟨t', none⟩ ∧ Block.headerEnd? t'.lines 0 = some 5 ∧
          Struct.at? t'.lines 0 = some ⟨"Pair", ["Base", "Sized", "Copyable"], 0⟩ := by
  repeat rw [Text.ofString_ofList]
  intro t s
  have hsize : t.length < UInt32.size := by decide +kernel
  have htokens : Block.headerTokens t.lines 0 5 = word "struct" 0 :: word "Pair" 7 ::
      ((sign "[" 11 :: ([word "T" 4, sign ":" 5, word "Movable" 7, sign "," 14] ++ [sign "]" 0])) ++
        ((sign "(" 1 :: ([word "Base" 4] ++ sign "[" 8 :: ([word "T" 9] ++ sign "]" 10 ::
          [sign "&" 12, word "Sized" 4, sign "," 9]) ++ [sign ")" 0])) ++ sign ":" 1 :: [])) := by
    decide +kernel
  have hheader : HasHeader t.lines 0 5 "Pair" := by
    refine ⟨by decide +kernel, by unfold NoQuote; decide +kernel, ?_⟩
    rw [htokens]
    refine .intro 0 7 1 (by decide +kernel) (.some 11 0 ?_) (.some 1 0 ?_ ?_)
    · exact .plain rfl rfl (.plain rfl rfl (.plain rfl rfl (.plain rfl rfl .nil)))
    · exact .plain rfl rfl (.group (o := "[") (c := "]") (by decide +kernel) 8 10
        (.plain rfl rfl .nil) (.plain rfl rfl (.plain rfl rfl (.plain rfl rfl .nil))))
    · rintro _ ⟨⟩
      rfl
  have hfound : ∃ row ∈ s.rows, ∃ f ∈ Rule.Structs.lineFindings s t.lines row 0,
      f.id = "TRAIT_ADD_COPYABLE" ∧
        ∀ e ∈ f.edits, (Edit.applyAll t [e]).text.length < UInt32.size := by decide +kernel
  have hold : (Struct.at? t.lines 0).map Struct.traits = some (["Base", "Sized"] : List Text) := by
    decide +kernel
  obtain ⟨row, hrow, f, hf, hid, hshort⟩ := hfound
  have hadded : (f.id, (["Copyable"] : List Text)) ∈ additions := by
    rw [hid]
    decide +kernel
  obtain ⟨e, others, t', old, hedits, -, happly, hend, hat, hread⟩ :=
    insertion_read_back hsize hheader hf hadded
  have hsize' := hshort e (hedits ▸ List.mem_cons_self)
  rw [happly] at hsize'
  obtain ⟨hat', -⟩ := hread hsize'
  rw [hat] at hold
  cases hold
  exact ⟨hsize, hheader, row, hrow, f, hf, hid, e, others, t', hedits, happly, hend, hat'⟩

end Traits

end MojoLint
