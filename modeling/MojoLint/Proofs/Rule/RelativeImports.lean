import Mathlib.Data.List.Chain
import MojoLint.Proofs.Edit.Lines
import MojoLint.Proofs.Rule.Edits
import MojoLint.Proofs.Token.Seams

/-!
# What becomes of a relative import

The edit of a relative import deletes as many bytes as the dots have, from the first dot on. The
line is then the import without its dots as long as the dots stand together and the module does not
run into the keyword (`Separable`), and in no other case (`dropDots_iff`): dots that stand apart are
not all deleted, and a module that runs into the keyword becomes one word with it.
-/

namespace MojoLint

namespace Token

/-! ## Tokens and what stands between them -/

/-- A token but for its place. -/
def spelling (t : Token) : Kind × Text := (t.kind, t.text)

/-- Nothing stands between the two tokens. -/
def Meets (a b : Token) : Prop := b.column = a.column + a.text.length.toUInt32

instance : DecidableRel Meets := fun a b =>
  inferInstanceAs (Decidable (b.column = a.column + a.text.length.toUInt32))

theorem meets_iff {a b : Token} {pos : Nat} {gap : Text} (ha : a.column = pos.toUInt32)
    (hb : b.column = (pos + a.text.length + gap.length).toUInt32)
    (hsize : pos + a.text.length + gap.length < UInt32.size) : a.Meets b ↔ gap = [] := by
  have hend : (a.column + a.text.length.toUInt32).toNat = pos + a.text.length := by
    rw [ha]
    exact Number.toNat_word_add (by omega)
  have hstart : b.column.toNat = pos + a.text.length + gap.length := by
    rw [hb]
    exact Number.toNat_word hsize
  rw [Meets, ← UInt32.toNat_inj, hend, hstart, ← List.length_eq_zero_iff]
  omega

theorem map_spelling_scan (pos pos' : Nat) (line : Text) :
    (scan pos line).map spelling = (scan pos' line).map spelling := by
  fun_induction scan pos line generalizing pos' with
  | case1 => rw [scan_nil]
  | case2 pos b rest hgap ih =>
    rw [scan_gap pos' rest hgap]
    exact ih (pos' + 1)
  | case3 pos b rest hgap kind more hlex ih =>
    rw [scan_lexeme pos' rest hgap, hlex, List.map_cons, List.map_cons, ih]
    rfl

end Token

namespace Rule.Imports

open Token (scan)

/-! ## Dots -/

theorem lexeme_dot (rest : Text) :
    (Token.lexeme Byte.dot rest).1 = .punct ∧
      (Byte.dot :: rest.take (Token.lexeme Byte.dot rest).2 = Text.ofString "." ∨
        Byte.dot :: rest.take (Token.lexeme Byte.dot rest).2 = Text.ofString "...") := by
  have hoperators : ∀ op ∈ Token.operators, ∀ c ∈ op.head?, c = Byte.dot →
      op = Text.ofString "..." := by decide +kernel
  have hliteral : Token.literal? (Byte.dot :: rest) = none := by
    have hletters : ((Byte.dot :: rest).take 2).takeWhile Byte.isLiteralLetter = [] := by
      rw [List.take_succ_cons]
      exact List.takeWhile_cons_of_neg (by decide)
    unfold Token.literal?
    rw [hletters]
    rfl
  have hlex : Token.lexeme Byte.dot rest = (.punct, Token.punctSize (Byte.dot :: rest) - 1) := by
    rw [Token.lexeme, if_neg (by decide), hliteral]
    simp only
    rw [if_neg (by decide), if_neg (by decide)]
  rw [hlex]
  refine ⟨rfl, ?_⟩
  unfold Token.punctSize
  split
  · rename_i op hfind
    have hmem := List.mem_of_find?_eq_some hfind
    have hprefix := List.find?_some hfind
    rw [List.isPrefixOf_iff_prefix] at hprefix
    obtain ⟨tail, htail⟩ := hprefix
    cases op with
    | nil => exact .inl rfl
    | cons c op =>
      rw [List.cons_append, List.cons.injEq] at htail
      obtain ⟨rfl, rfl⟩ := htail
      rw [List.length_cons, Nat.add_sub_cancel, List.take_left]
      exact .inr (hoperators _ hmem Byte.dot rfl rfl)
  · exact .inl rfl

/-- A token that starts with a dot is made of dots. -/
theorem isDots_of_head {pos : Nat} {line : Text} {t : Token} (ht : t ∈ scan pos line)
    (hdot : Byte.dot ∈ t.text.head?) : isDots t = true := by
  obtain ⟨b, rest, -, -, hkind, htext⟩ := Token.exists_lexeme_of_mem_scan ht
  rw [htext] at hdot
  obtain rfl : b = Byte.dot := Option.some.inj hdot
  obtain ⟨hpunct, hdots⟩ := lexeme_dot rest
  simp only [isDots, Token.isPunct, hkind, htext, hpunct]
  rcases hdots with hdots | hdots <;> rw [hdots] <;> rfl

theorem head?_of_isDots {t : Token} (h : isDots t = true) : Byte.dot ∈ t.text.head? := by
  obtain ⟨hne, hall⟩ := of_isDots h
  obtain ⟨b, w, hbw⟩ := List.exists_cons_of_ne_nil hne
  have hb := hall b (by rw [hbw]; exact List.mem_cons_self)
  rw [hbw, hb]
  rfl

theorem isDots_of_dropWhile {ts later : List Token} {module : Token}
    (h : ts.dropWhile isDots = module :: later) : isDots module = false := by
  have hhead := List.head?_dropWhile_not isDots ts
  rw [h] at hhead
  simpa using hhead

/-- The first token behind gaps and dots is made of dots. -/
theorem exists_isDots_of_scan (pos : Nat) {u : Text}
    (hu : ∀ b ∈ u, Byte.isGap b = true ∨ b = Byte.dot) (hdot : Byte.dot ∈ u) (rest : Text) :
    ∃ t ts, scan pos (u ++ rest) = t :: ts ∧ isDots t = true := by
  induction u generalizing pos with
  | nil => cases hdot
  | cons b u ih =>
    obtain ⟨hb, hrest⟩ := List.forall_mem_cons.1 hu
    by_cases hgap : Byte.isGap b = true
    · rw [List.cons_append, Token.scan_gap pos _ hgap]
      apply ih (pos + 1) hrest
      rcases List.mem_cons.1 hdot with rfl | hdot
      · cases hgap
      · exact hdot
    · obtain rfl : b = Byte.dot := hb.resolve_left hgap
      have hscan := Token.scan_lexeme pos (u ++ rest) hgap
      refine ⟨_, _, hscan, ?_⟩
      exact isDots_of_head (hscan ▸ List.mem_cons_self) rfl

/-- The number of bytes in dots. -/
def dotCount (dots : List Token) : Nat := (dots.flatMap Token.text).length

theorem dotCount_pos {d : Token} (dots : List Token) (hd : isDots d = true) :
    0 < dotCount (d :: dots) := by
  rw [dotCount, List.flatMap_cons, List.length_append]
  exact Nat.add_pos_left (List.length_pos_iff.2 (of_isDots hd).1) _

/-- The dots lie in the bytes `run`, which end in the last of them. -/
structure Run (pos : Nat) (run : Text) (dots : List Token) : Prop where
  bytes : ∀ b ∈ run, Byte.isGap b = true ∨ b = Byte.dot
  last : run.getLast? = some Byte.dot
  size : dotCount dots ≤ run.length
  /-- There is nothing but the dots when they stand together. -/
  together : dots.IsChain Token.Meets ↔ run.length = dotCount dots
  stop : ∀ t ∈ dots.getLast?,
    ∃ start, t.column = start.toUInt32 ∧ start + t.text.length = pos + run.length

theorem run_single {pos : Nat} {d : Token} (hd : isDots d = true)
    (hcolumn : d.column = pos.toUInt32) : Run pos d.text [d] := by
  obtain ⟨hne, hall⟩ := of_isDots hd
  have hcount : dotCount [d] = d.text.length := by rw [dotCount, List.flatMap_singleton]
  refine ⟨fun b hb => .inr (hall b hb), ?_, hcount.le, ?_, ?_⟩
  · rw [List.getLast?_eq_some_getLast hne, hall _ (List.getLast_mem hne)]
  · exact iff_of_true (List.isChain_singleton d) hcount.symm
  · rintro t ⟨⟩
    exact ⟨pos, hcolumn, rfl⟩

theorem Run.cons {pos : Nat} {d next : Token} {gap run : Text} {dots : List Token}
    (hd : isDots d = true) (hcolumn : d.column = pos.toUInt32)
    (hgap : ∀ b ∈ gap, Byte.isGap b = true)
    (hnext : next.column = (pos + d.text.length + gap.length).toUInt32)
    (hsize : pos + d.text.length + gap.length < UInt32.size)
    (h : Run (pos + d.text.length + gap.length) run (next :: dots)) :
    Run pos (d.text ++ (gap ++ run)) (d :: next :: dots) := by
  obtain ⟨-, hall⟩ := of_isDots hd
  have hcount : dotCount (d :: next :: dots) = d.text.length + dotCount (next :: dots) := by
    rw [dotCount, List.flatMap_cons, List.length_append, dotCount]
  have hmeets := Token.meets_iff hcolumn hnext hsize
  have hlength : (d.text ++ (gap ++ run)).length = d.text.length + gap.length + run.length := by
    rw [List.length_append, List.length_append, Nat.add_assoc]
  have hle := h.size
  refine ⟨?_, ?_, ?_, ?_, ?_⟩
  · simp only [List.forall_mem_append]
    exact ⟨fun b hb => .inr (hall b hb), fun b hb => .inl (hgap b hb), h.bytes⟩
  · rw [← List.append_assoc, List.getLast?_append, h.last]
    rfl
  · rw [hcount, hlength]
    omega
  · rw [List.isChain_cons_cons, hmeets, h.together, hcount, hlength, ← List.length_eq_zero_iff]
    omega
  · intro t ht
    rw [List.getLast?_cons_cons] at ht
    obtain ⟨start, hstart, hstop⟩ := h.stop t ht
    exact ⟨start, hstart, by rw [hlength]; omega⟩

/-- The dots at the start of a scan, and the scan behind them. -/
theorem exists_run {pos : Nat} {line : Text} {d : Token} {dots ts : List Token}
    (h : scan pos line = d :: (dots ++ ts)) (hdots : ∀ t ∈ d :: dots, isDots t = true)
    (hsize : pos + line.length < UInt32.size) :
    ∃ gap run behind, line = gap ++ run ++ behind ∧ (∀ b ∈ gap, Byte.isGap b = true) ∧
      d.column = (pos + gap.length).toUInt32 ∧ Run (pos + gap.length) run (d :: dots) ∧
      ts = scan (pos + gap.length + run.length) behind := by
  obtain ⟨gap, rest, hline, hgap, hcolumn, -, hts⟩ := Token.scan_eq_cons h
  obtain ⟨hd, hlater⟩ := List.forall_mem_cons.1 hdots
  induction dots generalizing pos line d gap rest with
  | nil => exact ⟨gap, d.text, rest, hline, hgap, hcolumn, run_single hd hcolumn, hts⟩
  | cons next dots ih =>
    have hlength := congrArg List.length hline
    rw [List.length_append, List.length_append] at hlength
    obtain ⟨gap₁, rest₁, hrest, hgap₁, hcolumn₁, -, hts₁⟩ := Token.scan_eq_cons hts.symm
    have hlength₁ := congrArg List.length hrest
    rw [List.length_append, List.length_append] at hlength₁
    obtain ⟨hnext, hlater₁⟩ := List.forall_mem_cons.1 hlater
    obtain ⟨gap₂, run, behind, hrest₂, hgap₂, hcolumn₂, hrun, hts₂⟩ :=
      ih hts.symm hlater (by omega) gap₁ rest₁ hrest hgap₁ hcolumn₁ hts₁ hnext hlater₁
    have hlength₂ := congrArg List.length hrest₂
    rw [List.length_append, List.length_append] at hlength₂
    refine ⟨gap, d.text ++ (gap₂ ++ run), behind, ?_, hgap, hcolumn,
      hrun.cons hd hcolumn hgap₂ hcolumn₂ (by omega), ?_⟩
    · rw [hline, hrest₂]
      simp only [List.append_assoc]
    · rw [hts₂, List.length_append, List.length_append]
      simp only [Nat.add_assoc]

/-! ## An import without its dots -/

/-- The tokens without the dots behind the first of them. -/
def withoutDots : List Token → List Token
  | [] => []
  | keyword :: tail => keyword :: tail.dropWhile isDots

/-- The dots behind the first token stand together, and what stands behind them does not make one
word with the first token when they are gone. -/
def Separable : List Token → Prop
  | [] => True
  | keyword :: tail =>
    let dots := tail.takeWhile isDots
    let module := (tail.dropWhile isDots).take 1
    dots.IsChain Token.Meets ∧
      ((keyword :: dots ++ module).IsChain Token.Meets →
        ∀ t ∈ module, ∀ b ∈ t.text.head?, Byte.isIdentPart b = false)

instance (ts : List Token) : Decidable (Separable ts) :=
  match ts with
  | [] => isTrue trivial
  | _ :: _ => inferInstanceAs (Decidable (_ ∧ _))

section

variable {line : Text} {keyword next module : Token} {tail dots later : List Token}

/-- A line that starts with a keyword and dots: what is deleted, and how the rest is lexed. -/
theorem exists_layout (htokens : Token.ofLine line = keyword :: tail)
    (hdots : tail.takeWhile isDots = next :: dots)
    (hmodule : tail.dropWhile isDots = module :: later) (hsize : line.length < UInt32.size) :
    ∃ gap₀ gap₁ run gap₂ rest pos,
      line = gap₀ ++ keyword.text ++ gap₁ ++ run ++ (gap₂ ++ module.text ++ rest) ∧
      (∀ b ∈ gap₀, Byte.isGap b = true) ∧ (∀ b ∈ gap₁, Byte.isGap b = true) ∧
      (∀ b ∈ gap₂, Byte.isGap b = true) ∧
      next.column = (gap₀ ++ keyword.text ++ gap₁).length.toUInt32 ∧
      Run (gap₀ ++ keyword.text ++ gap₁).length run (next :: dots) ∧
      scan pos (gap₂ ++ module.text ++ rest) = module :: later ∧
      (keyword.Meets next ↔ gap₁ = []) ∧
      ∀ t ∈ (next :: dots).getLast?, t.Meets module ↔ gap₂ = [] := by
  have htail : tail = next :: (dots ++ module :: later) := by
    rw [← List.takeWhile_append_dropWhile (p := isDots) (l := tail), hdots, hmodule,
      List.cons_append]
  have hall : ∀ t ∈ next :: dots, isDots t = true := by
    rw [← hdots]
    exact List.all_eq_true.1 List.all_takeWhile
  obtain ⟨gap₀, rest₀, hline, hgap₀, hcolumn₀, -, hts₀⟩ := Token.scan_eq_cons htokens
  have hlength := congrArg List.length hline
  simp only [List.length_append] at hlength
  rw [htail] at hts₀
  obtain ⟨gap₁, run, behind, hrest₀, hgap₁, hcolumn₁, hrun, hts₁⟩ :=
    exists_run hts₀.symm hall (by omega)
  have hlength₀ := congrArg List.length hrest₀
  simp only [List.length_append] at hlength₀
  obtain ⟨gap₂, rest, hbehind, hgap₂, hcolumn₂, -, -⟩ := Token.scan_eq_cons hts₁.symm
  have hlength₁ := congrArg List.length hbehind
  simp only [List.length_append] at hlength₁
  have hpos : (gap₀ ++ keyword.text ++ gap₁).length =
      0 + gap₀.length + keyword.text.length + gap₁.length := by
    simp only [List.length_append, Nat.zero_add]
  rw [← hpos] at hcolumn₁ hrun
  refine ⟨gap₀, gap₁, run, gap₂, rest, _, ?_, hgap₀, hgap₁, hgap₂, hcolumn₁, hrun,
    hbehind ▸ hts₁.symm, ?_, ?_⟩
  · rw [hline, hrest₀, hbehind]
    simp only [List.append_assoc]
  · exact Token.meets_iff hcolumn₀ (by rw [hcolumn₁, hpos]) (by omega)
  · intro t ht
    obtain ⟨start, hstart, hstop⟩ := hrun.stop t ht
    rw [hpos] at hstop
    apply Token.meets_iff hstart
    · rw [hcolumn₂, hstop]
    · omega

theorem meets_run_iff {gap₁ gap₂ : Text} (hkeyword : keyword.Meets next ↔ gap₁ = [])
    (hmodule : ∀ t ∈ (next :: dots).getLast?, t.Meets module ↔ gap₂ = [])
    (hdots : (next :: dots).IsChain Token.Meets) :
    (keyword :: (next :: dots) ++ [module]).IsChain Token.Meets ↔ gap₁ = [] ∧ gap₂ = [] := by
  obtain ⟨last, hlast⟩ : ∃ last, (next :: dots).getLast? = some last :=
    ⟨_, List.getLast?_eq_some_getLast (List.cons_ne_nil next dots)⟩
  rw [List.cons_append, List.cons_append, List.isChain_cons_cons, hkeyword, ← List.cons_append,
    List.isChain_append, hlast, ← hmodule last hlast]
  simp [hdots]

/-- The tokens are separable when the deleted bytes are all of `run`, and there is a gap on a side
of it or the module is no name. -/
theorem separable_iff {gap₁ gap₂ run : Text} {pos : Nat}
    (hdots : tail.takeWhile isDots = next :: dots)
    (hmodule : tail.dropWhile isDots = module :: later) (hrun : Run pos run (next :: dots))
    (hfirst : keyword.Meets next ↔ gap₁ = [])
    (hlast : ∀ t ∈ (next :: dots).getLast?, t.Meets module ↔ gap₂ = []) :
    Separable (keyword :: tail) ↔ run.drop (dotCount (next :: dots)) = [] ∧
      (gap₁ = [] ∧ gap₂ = [] → ∀ b ∈ module.text.head?, Byte.isIdentPart b = false) := by
  have hsize := hrun.size
  have hleft : run.drop (dotCount (next :: dots)) = [] ↔ (next :: dots).IsChain Token.Meets := by
    rw [hrun.together, List.drop_eq_nil_iff]
    omega
  unfold Separable
  simp only [hdots, hmodule, List.take_succ_cons, List.take_zero, List.mem_singleton, forall_eq,
    hleft]
  refine and_congr_right fun hchain => ?_
  rw [meets_run_iff hfirst hlast hchain]

/-- Behind the keyword the line goes on with the module. -/
theorem map_spelling_of_separable {gap₀ gap₁ gap₂ name rest : Text} {pos : Nat}
    (hname : Token.IsName name) (hlong : 2 < name.length)
    (hgap₀ : ∀ b ∈ gap₀, Byte.isGap b = true) (hgap₁ : ∀ b ∈ gap₁, Byte.isGap b = true)
    (hgap₂ : ∀ b ∈ gap₂, Byte.isGap b = true)
    (hscan : scan pos (gap₂ ++ module.text ++ rest) = module :: later)
    (hne : module.text ≠ [])
    (hapart : gap₁ = [] ∧ gap₂ = [] → ∀ b ∈ module.text.head?, Byte.isIdentPart b = false) :
    (Token.ofLine (gap₀ ++ name ++ gap₁ ++ (gap₂ ++ module.text ++ rest))).map Token.spelling =
      (.ident, name) :: (module :: later).map Token.spelling := by
  have hpart : ∀ {b}, Byte.isGap b = true → Byte.isIdentPart b = false :=
    @(Byte.all (by decide))
  have hnext : ∀ c ∈ (gap₁ ++ (gap₂ ++ module.text ++ rest)).head?,
      Byte.isIdentPart c = false := by
    intro c hc
    cases gap₁ with
    | cons b gap₁ =>
      cases hc
      exact hpart (hgap₁ _ List.mem_cons_self)
    | nil =>
      cases gap₂ with
      | cons b gap₂ =>
        cases hc
        exact hpart (hgap₂ _ List.mem_cons_self)
      | nil =>
        obtain ⟨b, w, hbw⟩ := List.exists_cons_of_ne_nil hne
        apply hapart ⟨rfl, rfl⟩
        rw [hbw] at hc ⊢
        exact hc
  rw [Token.ofLine, List.append_assoc, List.append_assoc, Token.scan_gaps 0 hgap₀,
    Token.scan_long_name _ hname hlong hnext, Token.scan_gaps _ hgap₁, List.map_cons,
    Token.map_spelling_scan _ pos, hscan]
  rfl

/-- When the line goes on with the module, nothing but the dots was deleted, and the module does
not run into the keyword. -/
theorem of_map_text {gap₀ gap₁ gap₂ name left rest : Text} {pos : Nat}
    (hname : Token.IsName name) (hlong : 2 < name.length)
    (hgap₀ : ∀ b ∈ gap₀, Byte.isGap b = true) (hgap₁ : ∀ b ∈ gap₁, Byte.isGap b = true)
    (hleft : ∀ b ∈ left, Byte.isGap b = true ∨ b = Byte.dot) (hlast : left ≠ [] → Byte.dot ∈ left)
    (hscan : scan pos (gap₂ ++ module.text ++ rest) = module :: later)
    (hmodule : isDots module = false)
    (h : (Token.ofLine (gap₀ ++ name ++ gap₁ ++ (left ++ (gap₂ ++ module.text ++ rest)))).map
      Token.text = name :: (module :: later).map Token.text) :
    left = [] ∧ (gap₁ = [] ∧ gap₂ = [] →
      ∀ b ∈ module.text.head?, Byte.isIdentPart b = false) := by
  obtain ⟨pos', hbehind⟩ := Token.scan_long_name_append (0 + gap₀.length) hname hlong
    (gap₁ ++ (left ++ (gap₂ ++ module.text ++ rest)))
  rw [Token.ofLine, List.append_assoc, List.append_assoc, Token.scan_gaps 0 hgap₀, hbehind,
    List.map_cons, List.cons.injEq] at h
  obtain ⟨hword, hlater⟩ := h
  have hstop : (gap₁ ++ (left ++ (gap₂ ++ module.text ++ rest))).takeWhile Byte.isIdentPart = [] :=
    List.append_cancel_left (hword.trans (List.append_nil name).symm)
  have hrest := List.takeWhile_append_dropWhile (p := Byte.isIdentPart)
    (l := gap₁ ++ (left ++ (gap₂ ++ module.text ++ rest)))
  rw [hstop, List.nil_append] at hrest
  rw [hrest] at hlater
  have hnil : left = [] := by
    apply Classical.byContradiction
    intro hne
    have hbytes : ∀ b ∈ gap₁ ++ left, Byte.isGap b = true ∨ b = Byte.dot :=
      List.forall_mem_append.2 ⟨fun b hb => .inl (hgap₁ b hb), hleft⟩
    obtain ⟨t, ts, hfirst, ht⟩ := exists_isDots_of_scan pos' hbytes
      (List.mem_append_right gap₁ (hlast hne)) (gap₂ ++ module.text ++ rest)
    rw [List.append_assoc] at hfirst
    rw [hfirst, List.map_cons, List.map_cons, List.cons.injEq] at hlater
    -- so the module itself would start with a dot
    have hhead := head?_of_isDots ht
    rw [hlater.1] at hhead
    have hmem : module ∈ scan pos (gap₂ ++ module.text ++ rest) := by
      rw [hscan]
      exact List.mem_cons_self
    rw [isDots_of_head hmem hhead] at hmodule
    cases hmodule
  refine ⟨hnil, ?_⟩
  rintro ⟨rfl, rfl⟩ b hb
  rw [hnil, List.nil_append, List.nil_append, List.nil_append] at hstop
  cases hpart : Byte.isIdentPart b with
  | false => rfl
  | true =>
    obtain ⟨w, hbw⟩ := List.head?_eq_some_iff.1 (Option.mem_def.1 hb)
    rw [hbw, List.cons_append, List.takeWhile_cons_of_pos hpart] at hstop
    cases hstop

/-- **An import without its dots.** Where as many bytes as the dots have are deleted from the first
dot on, the line is lexed as before but for the dots exactly when they are separable. -/
theorem dropDots_iff (htokens : Token.ofLine line = keyword :: tail)
    (hkeyword : keyword.isIdent "from" = true) (hdots : tail.takeWhile isDots = next :: dots)
    (hmodule : tail.dropWhile isDots = module :: later) (hsize : line.length < UInt32.size) :
    ∃ before old behind, line = before ++ old ++ behind ∧
      next.column = before.length.toUInt32 ∧ old.length = dotCount (next :: dots) ∧
      old ≠ [] ∧ before ≠ [] ∧ behind ≠ [] ∧
      ((Token.ofLine (before ++ behind)).map Token.text =
        (keyword :: module :: later).map Token.text ↔ Separable (keyword :: tail)) ∧
      (Separable (keyword :: tail) →
        (Token.ofLine (before ++ behind)).map Token.spelling =
          (keyword :: module :: later).map Token.spelling) := by
  obtain ⟨gap₀, gap₁, run, gap₂, rest, pos, hline, hgap₀, hgap₁, hgap₂, hcolumn, hrun, hscan,
    hfirst, hlast⟩ := exists_layout htokens hdots hmodule hsize
  simp only [Token.isIdent, Bool.and_eq_true, beq_iff_eq] at hkeyword
  have hname : Token.IsName keyword.text :=
    Token.isName_of_mem_scan (htokens ▸ List.mem_cons_self) hkeyword.1
  have hlong : 2 < keyword.text.length := by
    rw [hkeyword.2]
    decide
  have hne : module.text ≠ [] := (Token.scan_eq_cons hscan).choose_spec.choose_spec.2.2.2.1
  have hnotDots : isDots module = false := isDots_of_dropWhile hmodule
  -- the dots are counted without the gaps between them, so that the end of `run` may stay
  have hseparable := separable_iff hdots hmodule hrun hfirst hlast
  have hpos : 0 < dotCount (next :: dots) :=
    dotCount_pos dots (List.all_eq_true.1 List.all_takeWhile next (hdots ▸ List.mem_cons_self))
  have hsize := hrun.size
  generalize dotCount (next :: dots) = n at hseparable hpos hsize
  have hword : Separable (keyword :: tail) →
      (Token.ofLine (gap₀ ++ keyword.text ++ gap₁ ++
        (run.drop n ++ (gap₂ ++ module.text ++ rest)))).map Token.spelling =
        (keyword :: module :: later).map Token.spelling := by
    intro hs
    obtain ⟨hnil, hapart⟩ := hseparable.1 hs
    have hkind : keyword.spelling = (.ident, keyword.text) := by rw [Token.spelling, hkeyword.1]
    rw [hnil, List.nil_append,
      map_spelling_of_separable hname hlong hgap₀ hgap₁ hgap₂ hscan hne hapart, ← hkind]
    rfl
  refine ⟨gap₀ ++ keyword.text ++ gap₁, run.take n,
    run.drop n ++ (gap₂ ++ module.text ++ rest), ?_, hcolumn, ?_, ?_, ?_, ?_, ?_, ?_⟩
  · rw [hline, List.append_assoc _ (run.take n), ← List.append_assoc (run.take n),
      List.take_append_drop]
    simp only [List.append_assoc]
  · rw [List.length_take_of_le hsize]
  · rw [Ne, List.take_eq_nil_iff]
    rintro (hzero | hnil)
    · omega
    · rw [hnil, List.length_nil] at hsize
      omega
  · intro hnil
    rw [(List.append_eq_nil_iff.1 (List.append_eq_nil_iff.1 hnil).1).2] at hlong
    cases hlong
  · intro hnil
    exact hne (List.append_eq_nil_iff.1 (List.append_eq_nil_iff.1
      (List.append_eq_nil_iff.1 hnil).2).1).2
  · constructor
    · intro htext
      refine hseparable.2 (of_map_text hname hlong hgap₀ hgap₁ ?_ ?_ hscan hnotDots htext)
      · exact fun b hb => hrun.bytes b (List.mem_of_mem_drop hb)
      · intro hdrop
        apply List.mem_of_getLast?
        rw [List.getLast?_drop, if_neg, hrun.last]
        rwa [← List.drop_eq_nil_iff]
    · intro hs
      have htext := congrArg (List.map Prod.snd) (hword hs)
      rwa [List.map_map, List.map_map] at htext
  · exact hword

end

/-! ## The edit of a relative import -/

theorem isIdent_of_ofTokens?_relative {keyword : Token} {ts tail : List Token}
    (h : Import.ofTokens? (keyword :: ts) = some (.relative tail)) :
    keyword.isIdent "from" = true := by
  unfold Import.ofTokens? at h
  split at h
  · rename_i heq
    cases heq
    split at h
    · rename_i hdots
      rw [Bool.and_eq_true] at hdots
      exact hdots.1
    · split at h
      · split at h <;> cases h
      · cases h
  · cases h

theorem isDots_of_spelling {a b : Token} (h : a.spelling = b.spelling) : isDots a = isDots b := by
  obtain ⟨hkind, htext⟩ := Prod.mk.inj h
  simp only [isDots, Token.isPunct, hkind, htext]

/-- Without its dots an import is not a relative one. -/
theorem ne_relative_of_spelling {line : Text} {keyword module : Token} {later tail : List Token}
    (h : (Token.ofLine line).map Token.spelling = (keyword :: module :: later).map Token.spelling)
    (hmodule : isDots module = false) :
    Import.ofTokens? (Token.codeTokens line) ≠ some (.relative tail) := by
  intro hrelative
  obtain ⟨first, next, rest, hcode, -, hdots, -⟩ := of_ofTokens?_relative hrelative
  obtain ⟨us, hus⟩ := Token.exists_append_dropComment (Token.ofLine line)
  rw [← Token.codeTokens, hcode] at hus
  rw [hus, List.cons_append, List.cons_append, List.map_cons, List.map_cons, List.map_cons,
    List.map_cons, List.cons.injEq, List.cons.injEq] at h
  rw [isDots_of_spelling h.2.1, hmodule] at hdots
  cases hdots

/-- **What the edit of a relative import does.** It changes its own line only. That line then has
the tokens it had without the dots exactly when the dots are separable, and in that case it is no
relative import any more. -/
theorem dots_removed_iff {path t : Text} {checkDocs : Bool} {f : Finding} {e : Edit}
    (hsize : t.length < UInt32.size) (hf : f ∈ findings (Source.ofText path t checkDocs))
    (he : e ∈ f.edits) :
    ∃ i line m new, f.IsOn i ∧ f.edits = [e] ∧ t.lines[i]? = some line ∧
      Edit.applyAll t [e] = ⟨new, none⟩ ∧ new.lines = t.lines.set i m ∧
      ((Token.ofLine m).map Token.text = (withoutDots (Token.ofLine line)).map Token.text ↔
        Separable (Token.ofLine line)) ∧
      (Separable (Token.ofLine line) →
        (Token.ofLine m).map Token.spelling = (withoutDots (Token.ofLine line)).map Token.spelling ∧
        ∀ tail, Import.ofTokens? (Token.codeTokens m) ≠ some (.relative tail)) := by
  obtain ⟨row, i, tail, hrow, htail, rfl⟩ := exists_relative hf he
  obtain ⟨keyword, next, rest, hcode, hkeyword, hnext, rfl⟩ := of_ofTokens?_relative htail
  obtain ⟨l, us, hl, -, hoffset, hofLine⟩ :=
    Source.exists_line_of_codeTokens (Source.mem_visible_iff.1 hrow).1 hcode hkeyword
  rw [hcode] at htail
  rw [List.cons_append] at hofLine
  obtain ⟨hmodule, hedits, hedit⟩ := of_mem_edits_relativeFinding he
  obtain ⟨module, later, hmodule⟩ := List.exists_cons_of_ne_nil hmodule
  have hle := Line.offsetAt_add_length_le hl
  -- the comment at the end of the line, if there is one, is behind the module
  have htake : (next :: (rest ++ us)).takeWhile isDots = next :: rest.takeWhile isDots := by
    rw [List.dropWhile_cons_of_pos hnext] at hmodule
    rw [List.takeWhile_cons_of_pos hnext, List.takeWhile_append, if_neg]
    intro hall
    have hlength := congrArg List.length
      (List.takeWhile_append_dropWhile (p := isDots) (l := rest))
    rw [hmodule, List.length_append, List.length_cons] at hlength
    omega
  have hdrop : (next :: (rest ++ us)).dropWhile isDots = module :: (later ++ us) := by
    rw [← List.cons_append, List.dropWhile_append, hmodule]
    rfl
  obtain ⟨before, old, behind, hline, hcolumn, hlength, hold, hbefore, hbehind, hiff, hword⟩ :=
    dropDots_iff hofLine (isIdent_of_ofTokens?_relative htail) htake hdrop (by omega)
  have hcount : ((next :: rest).takeWhile isDots).flatMap Token.text =
      (next :: rest.takeWhile isDots).flatMap Token.text := by
    rw [List.takeWhile_cons_of_pos hnext]
  rw [dotCount, ← hcount] at hlength
  rw [hline, List.length_append, List.length_append] at hle
  have hrewrites : e.Rewrites (Line.offsetAt (Line.split t) i) l (before ++ behind) := by
    have htakes := Line.takes_before_end (Line.lf_notMem hl) hline List.not_mem_nil hbehind
    rw [List.append_nil] at htakes
    refine .intro before old behind hline ?_ ?_ hold ?_ htakes
    · rw [hedit]
      simp only [List.head?_cons, Option.map_some, Option.getD_some, hoffset, hcolumn]
      exact Number.toNat_word_add (by omega)
    · rw [hedit, hlength]
      exact Number.toNat_word (by omega)
    · rw [hedit, List.append_nil]
  obtain ⟨new, happly, hlines⟩ := hrewrites.applyAll_eq hl
  refine ⟨i, l.text, before ++ behind, new, rfl, hedits, ?_, happly, hlines, ?_⟩
  · rw [Text.lines, List.getElem?_map, hl]
    rfl
  · rw [hofLine, withoutDots, hdrop]
    refine ⟨hiff, fun hs => ⟨hword hs, fun tail => ?_⟩⟩
    exact ne_relative_of_spelling (hword hs) (isDots_of_dropWhile hmodule)

/-- Dots that stand together, in front of a module and a comment. -/
theorem dots_removed_of_adjacent :
    let t : Text := "from ..a import b  # c\n"
    let s := Source.ofText "a.mojo" t false
    t.length < UInt32.size ∧ ∃ f ∈ findings s, ∃ e ∈ f.edits, ∃ line m new,
      Edit.applyAll t [e] = ⟨new, none⟩ ∧ m ∈ new.lines ∧ Separable (Token.ofLine line) ∧
      (Token.ofLine m).map Token.spelling =
        (withoutDots (Token.ofLine line)).map Token.spelling := by
  repeat rw [Text.ofString_ofList]
  intro t s
  have hsize : t.length < UInt32.size := by decide +kernel
  have hseparable : ∀ line ∈ t.lines, Separable (Token.ofLine line) := by decide +kernel
  obtain ⟨f, hf, e, he, -⟩ : ∃ f ∈ findings s, ∃ e ∈ f.edits, e.replacement = [] := by
    decide +kernel
  obtain ⟨i, line, m, new, -, -, hline, happly, hlines, -, hword⟩ := dots_removed_iff hsize hf he
  have hs := hseparable line (List.mem_of_getElem? hline)
  refine ⟨hsize, f, hf, e, he, line, m, new, happly, ?_, hs, (hword hs).1⟩
  rw [hlines]
  exact List.mem_set (List.getElem?_eq_some_iff.1 hline).1 m

/-- Dots that stand apart, of which one stays, and a dot without white space around it, which leaves
the module as a part of the keyword. -/
theorem dots_left_behind :
    let spaced : Text := "from . . a import b\n"
    let joined : Text := "from.a import b\n"
    let words (t : Text) := (t.lines.map Token.ofLine).map (·.map Token.text)
    let wanted (t : Text) :=
      (t.lines.map Token.ofLine).map fun ts => (withoutDots ts).map Token.text
    (∃ f ∈ findings (Source.ofText "a.mojo" spaced false), f.id = "RELATIVE_IMPORT" ∧
      ∃ e ∈ f.edits, Edit.applyAll spaced [e] = ⟨"from . a import b\n", none⟩ ∧
        words "from . a import b\n" ≠ wanted spaced) ∧
    ∃ f ∈ findings (Source.ofText "a.mojo" joined false), f.id = "RELATIVE_IMPORT" ∧
      ∃ e ∈ f.edits, Edit.applyAll joined [e] = ⟨"froma import b\n", none⟩ ∧
        words "froma import b\n" ≠ wanted joined := by
  repeat rw [Text.ofString_ofList]
  decide +kernel

end Rule.Imports

end MojoLint
