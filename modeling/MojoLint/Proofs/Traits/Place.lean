import MojoLint.Proofs.Edit.Lines
import MojoLint.Proofs.Text.Delimiter
import MojoLint.Proofs.Traits.Extension
import MojoLint.Proofs.Traits.Reports
import MojoLint.Proofs.Traits.Walk

/-!
# Where new traits are put

A header ends on the line that closes its last bracket, so that line is the one that changes when
traits are declared (`PutsInto`). The walk through the rows of the header cuts it between two
tokens, and an offset of the file is a column of that line.
-/

namespace MojoLint

/-! ## Rows of lines without quotes -/

/-- A line without quotes finishes no literal. -/
theorem Exclusion.tailOf_of_noQuote (checkDocs : Bool) (s : State) {line : Text}
    (h : NoQuote line) : tailOf checkDocs (s.flags line) = 0 := by
  have hend : Delimiter.firstEnd line = none := by
    rw [Delimiter.firstEnd, Delimiter.find_noQuote h]
    rfl
  simp [tailOf, State.flags, hend]

namespace Source

variable {path t : Text} {checkDocs : Bool}

theorem codeTokens_of_noQuote {j : Nat} {row : Row}
    (h : (ofText path t checkDocs).rows[j]? = some row) (hquote : NoQuote row.text) :
    row.codeTokens = Token.codeTokens row.text := by
  obtain ⟨l, hl, htext, -⟩ := exists_line_of_row h
  rw [htext] at hquote ⊢
  rw [getElem?_rows_ofText hl] at h
  cases h
  have hclosed := Exclusion.tailOf_of_noQuote checkDocs
    (Exclusion.State.start.after (t.lines.take j)) hquote
  rw [Row.codeTokens, rowOf, hclosed]
  rfl

/-- The header on line `i` of the text ends on the line `l`, whose row is `row`. -/
structure HeaderRows (s : Source) (t : Text) (i last : Nat) (above : List Text) (l : Line)
    (rows : List Row) (row : Row) : Prop where
  lines : Block.headerLines t.lines i last = above ++ [l.text]
  length : i + above.length = last
  line : (Line.split t)[last]? = some l
  slice : s.slice i (last + 1) = rows ++ [row]
  offset : row.offset = (Line.offsetAt (Line.split t) last).toUInt32
  above_code : rows.flatMap Row.codeTokens = above.flatMap Token.codeTokens
  code : row.codeTokens = Token.codeTokens l.text

/-- The offset behind a token of the last line. -/
theorem HeaderRows.offset_of_endsAt {s : Source} {i last : Nat} {above : List Text} {l : Line}
    {rows : List Row} {row : Row} (h : HeaderRows s t i last above l rows row) {p : Text}
    {ts : List Token} {u : Token} (hends : Token.EndsAt 0 p (ts ++ [u])) :
    row.offset + u.column + u.text.length.toUInt32 =
      (Line.offsetAt (Line.split t) last + p.length).toUInt32 := by
  rcases hends with ⟨hnil, -⟩ | ⟨init, v, p', heq, rfl, hcolumn⟩
  · simp at hnil
  · obtain ⟨-, hv⟩ := List.append_inj' heq rfl
    cases hv
    simp only [h.offset, hcolumn, Nat.zero_add, List.length_append, Nat.toUInt32,
      UInt32.ofNat_add, UInt32.add_assoc]

theorem exists_headerRows (path : Text) (checkDocs : Bool) {i last : Nat} {above : List Text}
    {line : Text} (hlines : Block.headerLines t.lines i last = above ++ [line])
    (hlast : i + above.length = last)
    (hquote : ∀ line ∈ Block.headerLines t.lines i last, NoQuote line) :
    ∃ l rows row, line = l.text ∧
      HeaderRows (ofText path t checkDocs) t i last above l rows row := by
  have htexts : ((ofText path t checkDocs).slice i (last + 1)).map Row.text =
      Block.headerLines t.lines i last := by
    rw [slice, List.map_take, List.map_drop, ← lines, lines_ofText, Block.headerLines]
  have hcode : ∀ row ∈ (ofText path t checkDocs).slice i (last + 1),
      row.codeTokens = Token.codeTokens row.text := by
    intro row hrow
    obtain ⟨j, hj⟩ := List.mem_iff_getElem?.1 (List.mem_of_mem_drop (List.mem_of_mem_take hrow))
    exact codeTokens_of_noQuote hj (hquote _ (htexts ▸ List.mem_map_of_mem hrow))
  rw [hlines] at htexts
  obtain ⟨rows, ends, hslice, rfl, hends⟩ := List.map_eq_append_iff.1 htexts
  obtain ⟨row, rest, rfl, rfl, hrest⟩ := List.map_eq_cons_iff.1 hends
  obtain rfl := List.map_eq_nil_iff.1 hrest
  have hmem : (row, last) ∈ ((ofText path t checkDocs).slice i (last + 1)).zipIdx i := by
    rw [hslice, List.zipIdx_append, ← hlast, List.length_map]
    exact List.mem_append_right _ List.mem_cons_self
  obtain ⟨l, hl, htext, hoffset, -⟩ := exists_line_of_row (mem_zipIdx_slice_iff.1 hmem).2.2
  rw [hslice] at hcode
  refine ⟨l, rows, row, htext, htext ▸ hlines, hlast, hl, hslice, hoffset, ?_, ?_⟩
  · rw [List.flatMap_map, List.flatMap_def, List.flatMap_def]
    congr 1
    apply List.map_congr_left
    intro row hrow
    exact hcode row (List.mem_append_left _ hrow)
  · rw [← htext]
    exact hcode row (List.mem_append_right _ List.mem_cons_self)

end Source

namespace Struct

open Token (sign word Thinned)

/-- The struct on a line is the one that the tokens of its header declare. -/
theorem eq_of_at? {t name s : Text} {i last : Nat} {struct : Struct} {params tail : List Token}
    {a b c : UInt32} (hsize : t.length < UInt32.size)
    (hend : Block.headerEnd? t.lines i = some last)
    (hquote : ∀ line ∈ Block.headerLines t.lines i last, NoQuote line)
    (hstruct : at? t.lines i = some struct) (hparams : IsParameters params)
    (hs : s = "(" ∨ s = ":")
    (htokens : Block.headerTokens t.lines i last =
      word "struct" a :: word name b :: (params ++ sign s c :: tail)) :
    struct = ⟨name, if s = "(" then traitNames 1 none tail else [], i⟩ := by
  obtain ⟨k, n, more, hcode, -⟩ := at?_eq_some_iff.1 hstruct
  obtain ⟨vs, hvs, hat⟩ := exists_at?_of_thinned hend hquote
    (Block.length_lt_of_mem_headerLines fun line => Text.length_lt_of_mem_lines hsize)
    (by rw [htokens]; exact Thinned.refl _) fun _ => by
      rw [hcode]
      exact Nat.le_add_left 2 more.length
  rw [← traitsOf_thinned hparams hs c hvs]
  exact Option.some.inj (hstruct.symm.trans hat)

end Struct

namespace Traits

open Struct (Balanced IsParameters)
open Token (sign word)

section

variable {path t : Text} {checkDocs : Bool} {i last : Nat} {name : Text}

/-! ## The edit at the end of a walk -/

theorem insertion_of_listEnd {source : Source} (struct : Struct) (text : Text) {offset : UInt32}
    (hend : Block.headerEnd? source.lines struct.header = some last)
    (hwalk : walkRows struct.name ⟨0, none, none⟩ (source.slice struct.header (last + 1)) =
      .listEnd offset) :
    insertion source struct text = ⟨source.path, offset, 0,
      (if struct.traits.isEmpty then [] else ", ") ++ text, "Declare " ++ text⟩ := by
  unfold insertion
  simp only [hend, Option.getD_some]
  rw [hwalk]

theorem insertion_of_onward {source : Source} (struct : Struct) (text : Text) {w : Walk}
    {spot : UInt32} (hend : Block.headerEnd? source.lines struct.header = some last)
    (hwalk : walkRows struct.name ⟨0, none, none⟩ (source.slice struct.header (last + 1)) =
      .onward w) (hspot : w.spot = some spot) :
    insertion source struct text =
      ⟨source.path, spot, 0, "(" ++ text ++ ")", "Declare " ++ text⟩ := by
  unfold insertion
  simp only [hend, Option.getD_some]
  rw [hwalk]
  simp only [hspot, Option.getD_some]

/-- The edit puts code into the last line of the header on line `i`, between the parts `p` and `q`
of that line, where the tokens of the header are cut into `front` and `us`. -/
structure PutsInto (t : Text) (i last : Nat) (e : Edit) (above : List Text) (p q : Text)
    (front us : List Token) : Prop where
  lines : Block.headerLines t.lines i last = above ++ [p ++ q]
  length : i + above.length = last
  line : ∃ l, (Line.split t)[last]? = some l ∧ l.text = p ++ q
  offset : e.offset = (Line.offsetAt (Line.split t) last + p.length).toUInt32
  inserts : e.length = 0
  cut : ∃ ts, Token.Cut p q ts us ∧ above.flatMap Token.codeTokens ++ ts = front
  unfinished : us ≠ []

/-- The lines of the text after the edit. -/
theorem PutsInto.exists_lines {e : Edit} {above : List Text} {p q : Text} {front us : List Token}
    (h : PutsInto t i last e above p q front us) (hsize : t.length < UInt32.size)
    (hfeed : Byte.lf ∉ e.replacement) :
    ∃ t', Edit.applyAll t [e] = ⟨t', none⟩ ∧ t.lines[last]? = some (p ++ q) ∧
      t'.lines = t.lines.set last (p ++ (e.replacement ++ q)) := by
  obtain ⟨l, hl, hbytes⟩ := h.line
  obtain ⟨ts, hcut, -⟩ := h.cut
  have hq : q ≠ [] := by
    rintro rfl
    exact h.unfinished (hcut.behind.symm.trans (Token.scan_nil _))
  have hwithin := Line.offsetAt_add_length_le hl
  rw [hbytes, List.length_append] at hwithin
  obtain ⟨t', happly, hnew⟩ := Edit.applyAll_into_line hl hbytes hq
    (by rw [h.offset, Number.toNat_word (by omega)]) h.inserts hfeed
  refine ⟨t', happly, ?_, hnew⟩
  rw [Text.lines, List.getElem?_map, hl, Option.map_some, hbytes]

/-- The last token before the colon of a header stands on the last line of the header. -/
theorem exists_last_row (path : Text) (checkDocs : Bool)
    (hend : Block.headerEnd? t.lines i = some last)
    (hquote : ∀ line ∈ Block.headerLines t.lines i last, NoQuote line)
    {front rest : List Token} {u colon : Token}
    (hdepth : Block.depthAfter 0 (front ++ [u]) = some 0)
    (hcolon : Block.depthAfter 0 [colon] = none)
    (htokens : Block.headerTokens t.lines i last = front ++ [u] ++ colon :: rest) :
    ∃ above l rows row ts,
      Source.HeaderRows (Source.ofText path t checkDocs) t i last above l rows row ∧
        NoQuote l.text ∧ above.flatMap Token.codeTokens ++ ts = front ∧
        Token.codeTokens l.text = ts ++ u :: colon :: rest := by
  obtain ⟨above, line, ts, hlines, hlast, -, hne, hfront, hcode⟩ :=
    Block.exists_last_tokens hend hdepth (List.concat_ne_nil u front) hcolon htokens
  obtain ⟨l, rows, row, rfl, hrows⟩ := Source.exists_headerRows path checkDocs hlines hlast hquote
  obtain ⟨init, v, rfl⟩ := (List.eq_nil_or_concat ts).resolve_left hne
  rw [List.concat_eq_append, ← List.append_assoc] at hfront
  obtain ⟨hinit, hv⟩ := List.append_inj' hfront rfl
  cases hv
  rw [List.concat_eq_append, List.append_assoc] at hcode
  exact ⟨above, l, rows, row, init, hrows,
    hquote _ (hlines ▸ List.mem_append_right _ List.mem_cons_self), hinit, hcode⟩

section

variable {params rest : List Token} {a b c d : UInt32}

/-- **Without a list** the edit makes one behind the name and the parameters. -/
theorem exists_putsInto_front (path : Text) (checkDocs : Bool)
    (hend : Block.headerEnd? t.lines i = some last)
    (hquote : ∀ line ∈ Block.headerLines t.lines i last, NoQuote line)
    (hname : name = "struct" → params ≠ []) (hparams : IsParameters params)
    (htokens : Block.headerTokens t.lines i last =
      word "struct" a :: word name b :: (params ++ sign ":" c :: rest))
    (old : List Text) (text : Text) :
    let e := insertion (Source.ofText path t checkDocs) ⟨name, old, i⟩ text
    e.replacement = "(" ++ text ++ ")" ∧ ∃ above p q,
      PutsInto t i last e above p q (word "struct" a :: word name b :: params)
        (sign ":" c :: rest) := by
  intro e
  have hhead : Block.depthAfter 0 (word "struct" a :: word name b :: params) =
      Block.depthAfter 0 params := rfl
  have hdepth := hhead.trans (Struct.depthAfter_parameters hparams)
  obtain ⟨front, u, hlast⟩ := (List.eq_nil_or_concat _).resolve_left
    (List.cons_ne_nil (word "struct" a) (word name b :: params))
  rw [List.concat_eq_append] at hlast
  rw [← List.cons_append, ← List.cons_append, hlast] at htokens
  rw [hlast] at hdepth
  obtain ⟨above, l, rows, row, ts, hrows, hline, hfront, hcode⟩ :=
    exists_last_row path checkDocs hend hquote hdepth rfl htokens
  have hstart : above.flatMap Token.codeTokens ++ (ts ++ [u]) =
      word "struct" a :: word name b :: params := by rw [hlast, ← List.append_assoc, hfront]
  rw [List.append_cons] at hcode
  have hsource : (Source.ofText path t checkDocs).lines = t.lines := Source.lines_ofText
  have hwalk := walkRows_front hname hparams (hrows.above_code ▸ hstart) (hrows.code.trans hcode)
  rw [← hrows.slice] at hwalk
  have he : e = _ := insertion_of_onward ⟨name, old, i⟩ text (hsource ▸ hend) hwalk rfl
  obtain ⟨p, q, hbytes, hcut, hends⟩ := Token.exists_cut_of_codeTokens hline hcode
  rw [he]
  refine ⟨rfl, above, p, q, hbytes ▸ hrows.lines, hrows.length, ⟨l, hrows.line, hbytes⟩, ?_, rfl,
    ⟨_, hcut, hstart⟩, List.cons_ne_nil _ _⟩
  exact hrows.offset_of_endsAt hends

/-- A struct named like the keyword, with nothing but its name, gets its list behind the keyword. -/
theorem exists_putsInto_keyword (path : Text) (checkDocs : Bool)
    (hend : Block.headerEnd? t.lines i = some last)
    (hquote : ∀ line ∈ Block.headerLines t.lines i last, NoQuote line)
    (htokens : Block.headerTokens t.lines i last =
      word "struct" a :: word "struct" b :: sign ":" c :: rest)
    (hfirst : 2 ≤ (Token.codeTokens ((t.lines[i]?).getD [])).length)
    (old : List Text) (text : Text) :
    let e := insertion (Source.ofText path t checkDocs) ⟨"struct", old, i⟩ text
    e.replacement = "(" ++ text ++ ")" ∧ ∃ above p q,
      PutsInto t i last e above p q [word "struct" a]
        (word "struct" b :: sign ":" c :: rest) := by
  intro e
  have hdepth : Block.depthAfter 0 ([word "struct" a] ++ [word "struct" b]) = some 0 := rfl
  obtain ⟨above, l, rows, row, ts, hrows, hline, hfront, hcode⟩ :=
    exists_last_row path checkDocs hend hquote hdepth rfl htokens
  -- the keyword and the name stand on one line, so nothing stands above
  have hnone : above = [] := by
    cases above with
    | nil => rfl
    | cons first above =>
      obtain ⟨hle, hlast⟩ := Block.headerEnd?_spec hend
      have hlines := hrows.lines
      rw [Block.headerLines_eq_cons hle hlast, List.cons_append] at hlines
      have hlength := congrArg List.length hfront
      rw [(List.cons.inj hlines).1] at hfirst
      simp only [List.flatMap_cons, List.length_append, List.length_singleton] at hlength
      omega
  subst hnone
  have hsource : (Source.ofText path t checkDocs).lines = t.lines := Source.lines_ofText
  obtain rfl : ts = [word "struct" a] := hfront
  have hwalk := walkRows_keyword hrows.above_code (hrows.code.trans hcode)
  rw [← hrows.slice] at hwalk
  have he : e = _ := insertion_of_onward ⟨"struct", old, i⟩ text (hsource ▸ hend) hwalk rfl
  obtain ⟨p, q, hbytes, hcut, hends⟩ := Token.exists_cut_of_codeTokens hline hcode
  rw [he]
  refine ⟨rfl, [], p, q, hbytes ▸ hrows.lines, hrows.length, ⟨l, hrows.line, hbytes⟩, ?_, rfl,
    ⟨_, hcut, rfl⟩, List.cons_ne_nil _ _⟩
  rw [← List.nil_append [word "struct" a]] at hends
  exact hrows.offset_of_endsAt hends

/-- **With a list** it puts new entries at the end of the list. -/
theorem exists_putsInto_list (path : Text) (checkDocs : Bool)
    (hend : Block.headerEnd? t.lines i = some last)
    (hquote : ∀ line ∈ Block.headerLines t.lines i last, NoQuote line)
    {content : List Token} {colon : Token} (hparams : IsParameters params)
    (inner : Balanced content) (hcolon : Block.depthAfter 0 [colon] = none)
    (htokens : Block.headerTokens t.lines i last =
      word "struct" a :: word name b :: (params ++ sign "(" c :: content) ++ [sign ")" d] ++
        colon :: rest)
    (old : List Text) (text : Text) :
    let e := insertion (Source.ofText path t checkDocs) ⟨name, old, i⟩ text
    let front := word "struct" a :: word name b :: (params ++ sign "(" c :: content)
    e.replacement = (if old.isEmpty then [] else ", ") ++ text ∧ ∃ above p q,
      PutsInto t i last e above p q front (sign ")" d :: colon :: rest) ∧
        (∃ behind, Token.uncomment q = ")" ++ behind) ∧
        ((∀ u ∈ front.getLast?, ∃ b, u.text.getLast? = some b ∧ Byte.closes b = true) →
          ∀ x, Apart p x) := by
  intro e front
  have hhead : Block.depthAfter 0
      (word "struct" a :: word name b :: (params ++ sign "(" c :: content) ++ [sign ")" d]) =
        Block.depthAfter 0 (params ++ sign "(" c :: content ++ [sign ")" d]) := rfl
  have hdepth : Block.depthAfter 0 (params ++ sign "(" c :: content ++ [sign ")" d]) = some 0 := by
    rw [List.append_assoc, Block.depthAfter_append, Struct.depthAfter_parameters hparams,
      Option.bind_some]
    exact inner.depthAfter_group (by decide +kernel) c d 0
  obtain ⟨above, l, rows, row, ts, hrows, hline, hfront, hcode⟩ :=
    exists_last_row path checkDocs hend hquote (hhead.trans hdepth) hcolon htokens
  obtain ⟨p, gap, q, hbytes, hcut, hends, hgap, hcolumn, hq⟩ := Token.exists_cut_before hline hcode
  have hsource : (Source.ofText path t checkDocs).lines = t.lines := Source.lines_ofText
  have hwalk := walkRows_list hparams inner (hrows.above_code ▸ hfront) (hrows.code.trans hcode)
  rw [← hrows.slice] at hwalk
  have he : e = _ := insertion_of_listEnd ⟨name, old, i⟩ text (hsource ▸ hend) hwalk
  have hplace : d = (p ++ gap).length.toUInt32 := hcolumn
  rw [he]
  refine ⟨rfl, above, p ++ gap, q, ⟨hbytes ▸ hrows.lines, hrows.length, ⟨l, hrows.line, hbytes⟩, ?_,
    rfl, ⟨ts, hcut, hfront⟩, List.cons_ne_nil _ _⟩, hq, fun hlast => ?_⟩
  · simp only [hrows.offset, hplace, Nat.toUInt32, UInt32.ofNat_add]
  · apply Token.apart_of_endsAt hends hgap
    intro u hu
    refine hlast u ?_
    have hmem : u ∈ (above.flatMap Token.codeTokens ++ ts).getLast? := by
      rw [List.getLast?_append, Option.mem_def.1 hu]
      rfl
    rwa [hfront] at hmem

end

/-! ## The findings that declare traits -/

/-- A finding that declares traits is about the struct on its line. -/
theorem exists_struct_of_addition {source : Source} {lines : List Text} {row : Row} {f : Finding}
    (h : f ∈ Rule.Structs.lineFindings source lines row i) {added : List Text}
    (hid : (f.id, added) ∈ additions) :
    ∃ struct l, Struct.at? lines i = some struct ∧ f ∈ findings source struct l := by
  have hnone : ∀ p ∈ additions, p.1 ≠ "DEPRECATED_VALUE_DECORATOR" ∧ p.1 ≠ "STRUCT_NAMING" := by
    decide +kernel
  obtain ⟨hdecorator, hnaming⟩ := hnone _ hid
  unfold Rule.Structs.lineFindings at h
  split at h
  · obtain rfl := List.mem_singleton.1 h
    exact absurd rfl hdecorator
  · split at h
    · cases h
    · split at h
      · rename_i struct hstruct
        refine ⟨struct, ?_⟩
        rcases List.mem_append.1 h with h | h
        · split at h
          · cases h
          · obtain rfl := List.mem_singleton.1 h
            exact absurd rfl hnaming
        · unfold Rule.Structs.traitFindings at h
          split at h
          · split at h
            · cases h
            · exact ⟨_, hstruct, h⟩
          · cases h
      · cases h

end

end Traits

end MojoLint
