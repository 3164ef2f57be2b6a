import MojoLint.Docstring.Quality
import MojoLint.Proofs.Docstring.Stub
import MojoLint.Proofs.Text.Delimiter
import MojoLint.Proofs.Text.Replace

/-!
# The verdict on a stub

A stub is known line by line (`Signature.lines_stub`, `lines_structStub`), and so its assessment is
known wherever it stands between other lines. The stub of a struct says enough. That of a function
has a description, and so it says enough unless it has no sections: then it lists neither an
argument nor a result (`Signature.verdict_stub`).
-/

namespace MojoLint

/-! ## Lines of a text -/

/-- Lines that are each ended by a line feed are the lines of the whole. -/
theorem Text.lines_flatMap_feed {ls : List Text} (h : ∀ l ∈ ls, Byte.lf ∉ l ∧ Byte.cr ∉ l) :
    Text.lines (ls.flatMap (· ++ [Byte.lf])) = ls := by
  induction ls with
  | nil => simp [lines, Line.split]
  | cons l ls ih =>
    obtain ⟨⟨hfeed, hreturn⟩, hrest⟩ := List.forall_mem_cons.1 h
    have hlines := ih hrest
    unfold lines at hlines ⊢
    rw [List.flatMap_cons, List.append_assoc, List.singleton_append, split_append_lf hfeed,
      List.map_cons, hlines, text_close_of_cr_notMem hreturn]

/-- What is left of a text when white space before it is trimmed. -/
theorem Text.trim_append {c d : UInt8} {blank : Text} (hblank : ∀ b ∈ blank, Byte.isSpace b = true)
    (hc : Byte.isSpace c = false) (hd : Byte.isSpace d = false) (t : Text) :
    trim (blank ++ (c :: t ++ [d])) = c :: t ++ [d] := by
  rw [trim, List.cons_append, trimLeft_append hc hblank, ← List.cons_append, trimRight_append hd]
  rfl

namespace Docstring

/-- Prose on one line. -/
def IsSentence (t : Text) : Prop := ∀ b ∈ t, isProse b = true ∧ b ≠ Byte.lf

instance (t : Text) : Decidable (IsSentence t) :=
  inferInstanceAs (Decidable (∀ b ∈ t, isProse b = true ∧ b ≠ Byte.lf))

section Sentence

variable {t u : Text}

theorem IsSentence.append (ht : IsSentence t) (hu : IsSentence u) : IsSentence (t ++ u) :=
  List.forall_mem_append.2 ⟨ht, hu⟩

theorem IsSentence.noQuote (h : IsSentence t) : NoQuote t := by
  have hprose : ∀ {b}, isProse b = true → Byte.isQuote b = false := @(Byte.all (by decide))
  exact fun b hb => hprose (h b hb).1

theorem IsSentence.no_ending (h : IsSentence t) : Byte.lf ∉ t ∧ Byte.cr ∉ t := by
  constructor
  · exact fun hmem => (h _ hmem).2 rfl
  · intro hmem
    cases (h _ hmem).1

theorem isSentence_of_isName (h : Token.IsName t) : IsSentence t := by
  have hpart : ∀ {b}, Byte.isIdentPart b = true → b ≠ Byte.lf := @(Byte.all (by decide))
  exact fun b hb => ⟨isProse_of_isName h b hb, hpart (h.isIdentPart b hb)⟩

theorem isSpace_padding (indent : UInt32) : ∀ b ∈ padding indent, Byte.isSpace b = true := by
  intro b hb
  rw [List.eq_of_mem_replicate hb]
  rfl

theorem isSentence_padding (indent : UInt32) : IsSentence (padding indent) := by
  intro b hb
  rw [List.eq_of_mem_replicate hb]
  exact ⟨rfl, by decide⟩

end Sentence

/-! ## The start of a docstring -/

section Opening

variable (indent : UInt32) (u : Text)

theorem find_opening : Text.find Delimiter.triple (padding indent ++ (Delimiter.triple ++ u)) =
    some (padding indent).length := by
  rw [Delimiter.find_noQuote_append (isSentence_padding indent).noQuote]
  exact congrArg some (Nat.zero_add _)

/-- The opening line of a stub is indented as the stub is. -/
theorem indent_opening : Line.indent (padding indent ++ (Delimiter.triple ++ u)) = indent := by
  have hspaces : ∀ b ∈ padding indent, Byte.isIndent b = true := by
    intro b hb
    rw [List.eq_of_mem_replicate hb]
    rfl
  have hwidth : ∀ (n : Nat) (w : UInt32),
      (List.replicate n Byte.space).foldl (fun n b => n + if b = Byte.tab then 4 else 1) w =
        w + n.toUInt32 := by
    intro n
    induction n with
    | zero => exact fun w => (UInt32.add_zero w).symm
    | succ n ih =>
      intro w
      rw [List.replicate_succ, List.foldl_cons, ih, if_neg (by decide), UInt32.add_assoc]
      congr 1
      rw [UInt32.add_comm]
      exact (UInt32.ofNat_add n 1).symm
  rw [Line.indent, List.takeWhile_append_of_pos hspaces, Delimiter.triple, List.cons_append,
    List.takeWhile_cons_of_neg (by decide), List.append_nil, padding, hwidth, UInt32.zero_add]
  exact UInt32.ofNat_toNat

theorem trim_opening : Text.trim (padding indent ++ (Delimiter.triple ++ u)) =
    Delimiter.triple ++ Text.trimRight u := by
  have hquote : Byte.isSpace Byte.quote = false := rfl
  rw [Text.trim, Delimiter.triple, List.cons_append,
    Text.trimLeft_append hquote (isSpace_padding indent)]
  exact Text.trimRight_append hquote [Byte.quote, Byte.quote] u

theorem no_ending_opening (h : Byte.lf ∉ u ∧ Byte.cr ∉ u) :
    Byte.lf ∉ padding indent ++ (Delimiter.triple ++ u) ∧
      Byte.cr ∉ padding indent ++ (Delimiter.triple ++ u) := by
  have hpad := (isSentence_padding indent).no_ending
  have hquotes : Byte.lf ∉ Delimiter.triple ∧ Byte.cr ∉ Delimiter.triple := by decide
  simp only [List.mem_append, not_or]
  exact ⟨⟨hpad.1, hquotes.1, h.1⟩, hpad.2, hquotes.2, h.2⟩

theorem isBlank_opening : Line.isBlank (padding indent ++ (Delimiter.triple ++ u)) = false := by
  rw [Line.isBlank, trim_opening]
  rfl

end Opening

/-! ## Assessments -/

/-- Lines without quotes do not end a docstring. -/
theorem contentAfter_append {ls : List Text} (h : ∀ l ∈ ls, NoQuote l) (rest : List Text) :
    contentAfter (ls ++ rest) = ls.map Text.trim ++ contentAfter rest := by
  induction ls with
  | nil => rfl
  | cons l ls ih =>
    obtain ⟨hl, hrest⟩ := List.forall_mem_cons.1 h
    rw [List.cons_append, contentAfter, Delimiter.find_noQuote hl, ih hrest]
    rfl

/-- A docstring that starts with a long line and is not brief says enough, unless it has no section
for arguments or results. -/
theorem verdict_of_described {first : Text} (hlong : minSize ≤ first.length)
    (hspace : first.any (· == Byte.space) = true) (later : List Text) :
    (assessLines (first :: later)).verdict = .comprehensive ∨
      (assessLines (first :: later)).verdict = .missingSections ∧
        later.any startsParams = false ∧ later.any startsReturns = false := by
  have hempty : first.isEmpty = false := by
    cases first with
    | nil => cases hspace
    | cons => rfl
  have htitle : isSectionTitle first = false := by rw [isSectionTitle, hspace]; simp
  obtain ⟨u, hdescription⟩ :
      ∃ u, List.intercalate " " (firstParagraph (first :: later)) = first ++ u := by
    rw [firstParagraph, List.dropWhile_cons_of_neg (by simp [hempty]),
      List.takeWhile_cons_of_pos (by simp [hempty, htitle])]
    exact Text.exists_intercalate_cons " " first _
  have hdescribed : minSize ≤ (first ++ u).length := by
    rw [List.length_append]
    omega
  have hsize : ¬ (first :: later).flatten.length < minSize := by
    rw [List.flatten_cons, List.length_append]
    omega
  have hverdict : (assessLines (first :: later)).verdict =
      verdictOf (later.length + 1) (first :: later).flatten.length (first ++ u)
        (startsParams first || later.any startsParams)
        (startsReturns first || later.any startsReturns) := by
    rw [← hdescription]
    rfl
  rw [hverdict, verdictOf, if_neg hsize, decide_eq_true hdescribed]
  split
  · exact .inl rfl
  · rename_i hsignals
    simp only [Bool.or_eq_true, decide_eq_true_eq, not_or, Bool.toNat_true] at hsignals
    refine .inr ⟨rfl, Bool.eq_false_iff.2 ?_, Bool.eq_false_iff.2 ?_⟩
    · intro hparams
      rw [hparams, Bool.or_true, Bool.toNat_true] at hsignals
      omega
    · intro hreturns
      rw [hreturns, Bool.or_true, Bool.toNat_true] at hsignals
      omega

/-! ## The stub of a struct -/

/-- What a struct stub says. -/
def structPhrase (name : Text) : Text := "TODO: Describe the " ++ name ++ " struct."

theorem isSentence_structPhrase {name : Text} (hname : Token.IsName name) :
    IsSentence (structPhrase name) := by
  have hfront : IsSentence "TODO: Describe the " := by decide +kernel
  have hback : IsSentence " struct." := by decide +kernel
  exact (hfront.append (isSentence_of_isName hname)).append hback

/-- The line of a struct stub. -/
def structLine (name : Text) (indent : UInt32) : Text :=
  padding indent ++ (Delimiter.triple ++ (structPhrase name ++ Delimiter.triple))

theorem lines_structStub {name doc : Text} {indent : UInt32} (hname : Token.IsName name)
    (h : structStub? name indent = some doc) : doc.lines = [structLine name indent] := by
  have hphrase := (isSentence_structPhrase hname).no_ending
  have hquotes : Byte.lf ∉ Delimiter.triple ∧ Byte.cr ∉ Delimiter.triple := by decide
  have hline : Byte.lf ∉ structLine name indent ∧ Byte.cr ∉ structLine name indent := by
    apply no_ending_opening
    simp only [List.mem_append, not_or]
    exact ⟨⟨hphrase.1, hquotes.1⟩, hphrase.2, hquotes.2⟩
  have hopen : Text.ofString "\"\"\"TODO: Describe the " =
      Delimiter.triple ++ Text.ofString "TODO: Describe the " := rfl
  have hend : Text.ofString " struct.\"\"\"\n" =
      Text.ofString " struct." ++ (Delimiter.triple ++ [Byte.lf]) := rfl
  have hdoc : doc = [structLine name indent].flatMap (· ++ [Byte.lf]) := by
    unfold structStub? at h
    split at h
    · cases h
    · cases h
      simp only [hopen, hend, structLine, structPhrase, List.flatMap_singleton, List.append_assoc]
  rw [hdoc, Text.lines_flatMap_feed (List.forall_mem_singleton.2 hline)]

/-- **The stub of a struct says enough**, wherever it stands. -/
theorem verdict_structLine {name : Text} (hname : Token.IsName name) (indent : UInt32)
    (above below : List Text) :
    (assess (above ++ structLine name indent :: below) above.length).verdict = .appropriate := by
  have hphrase := isSentence_structPhrase hname
  have hclose : Text.find Delimiter.triple (structPhrase name ++ Delimiter.triple) =
      some (structPhrase name).length := by
    rw [Delimiter.find_noQuote_append hphrase.noQuote]
    exact congrArg some (Nat.zero_add _)
  have hinside : (structLine name indent).drop ((padding indent).length + 3) =
      structPhrase name ++ Delimiter.triple := by
    rw [structLine, ← List.append_assoc]
    exact List.drop_left' (by rw [List.length_append]; rfl)
  have htrim : Text.trim (structPhrase name) = structPhrase name := by
    have hends : structPhrase name =
        84 :: (Text.ofString "ODO: Describe the " ++ name ++ Text.ofString " struct") ++
          [Byte.dot] := by
      have hback : Text.ofString " struct." = Text.ofString " struct" ++ [Byte.dot] := rfl
      rw [structPhrase, hback, ← List.append_assoc]
      rfl
    exact hends ▸ Text.trim_append (List.forall_mem_nil _) rfl rfl _
  have hsize : minSize < (structPhrase name).length := by
    have hfront : (Text.ofString "TODO: Describe the ").length = 19 := rfl
    rw [structPhrase, List.length_append, List.length_append, hfront, minSize]
    omega
  rw [assess, List.drop_left]
  simp only [structLine, find_opening]
  rw [← structLine, hinside, hclose]
  simp only [assessShort, List.take_left, htrim, if_pos hsize]

/-! ## The stub of a function -/

/-- The lines of a stub that describe the arguments. -/
def argumentLines (pad : Text) : List Text → List Text
  | [] => []
  | names => [] :: (pad ++ "Args:") :: names.map fun name => pad ++ "    " ++ name ++ ": TODO."

/-- The lines of a stub that describe the result. -/
def resultLines (pad : Text) : Bool → List Text
  | false => []
  | true => [[], pad ++ "Returns:", pad ++ "    TODO."]

theorem argumentSection_eq (pad : Text) (names : List Text) :
    argumentSection pad names = (argumentLines pad names).flatMap (· ++ [Byte.lf]) := by
  have hfeed : Text.ofString "\n" = [Byte.lf] := rfl
  have htitle : Text.ofString "Args:\n" = Text.ofString "Args:" ++ [Byte.lf] := rfl
  have hline : Text.ofString ": TODO.\n" = Text.ofString ": TODO." ++ [Byte.lf] := rfl
  have hlines : argumentLine pad =
      fun name => pad ++ "    " ++ name ++ Text.ofString ": TODO." ++ [Byte.lf] := by
    funext name
    rw [argumentLine, hline, ← List.append_assoc]
  cases names with
  | nil => rfl
  | cons name names =>
    rw [argumentSection, argumentLines, hlines, hfeed, htitle]
    · simp only [List.flatMap_cons, List.flatMap_map, List.map_cons, List.append_assoc,
        List.nil_append]
    · nofun
    · nofun

theorem resultSection_eq (pad : Text) (hasResult : Bool) :
    resultSection pad hasResult = (resultLines pad hasResult).flatMap (· ++ [Byte.lf]) := by
  have hfeed : Text.ofString "\n" = [Byte.lf] := rfl
  have htitle : Text.ofString "Returns:\n" = Text.ofString "Returns:" ++ [Byte.lf] := rfl
  have hline : Text.ofString "    TODO.\n" = Text.ofString "    TODO." ++ [Byte.lf] := rfl
  cases hasResult with
  | false => rfl
  | true =>
    rw [resultSection, resultLines, hfeed, htitle, hline]
    simp only [List.flatMap_cons, List.flatMap_nil, List.append_assoc, List.nil_append,
      List.append_nil]

namespace Signature

/-- The lines of a stub between the first and the last. -/
def sectionLines (s : Signature) (indent : UInt32) : List Text :=
  argumentLines (padding indent) s.arguments ++ resultLines (padding indent) s.hasResult

/-- What a function stub says first. -/
def phrase (s : Signature) : Text := "TODO: Describe " ++ s.name ++ "."

/-- The lines of a stub. -/
def stubLines (s : Signature) (indent : UInt32) : List Text :=
  (padding indent ++ (Delimiter.triple ++ s.phrase)) ::
    (s.sectionLines indent ++ [padding indent ++ Delimiter.triple])

section

variable {s : Signature} (indent : UInt32)

theorem isSentence_phrase (hname : Token.IsName s.name) : IsSentence s.phrase := by
  have hfront : IsSentence "TODO: Describe " := by decide +kernel
  have hback : IsSentence "." := by decide +kernel
  exact (hfront.append (isSentence_of_isName hname)).append hback

theorem isSentence_sectionLines (harguments : ∀ a ∈ s.arguments, Token.IsName a) :
    ∀ l ∈ s.sectionLines indent, IsSentence l := by
  have hpad := isSentence_padding indent
  have htitles : IsSentence "Args:" ∧ IsSentence "Returns:" ∧ IsSentence "    TODO." ∧
      IsSentence "    " ∧ IsSentence ": TODO." := by decide +kernel
  obtain ⟨hargs, hreturns, htodo, hdeep, hrest⟩ := htitles
  refine List.forall_mem_append.2 ⟨?_, ?_⟩
  · unfold argumentLines
    split
    · nofun
    · simp only [List.forall_mem_cons, List.forall_mem_map]
      exact ⟨List.forall_mem_nil _, hpad.append hargs, fun a ha =>
        ((hpad.append hdeep).append (isSentence_of_isName (harguments a ha))).append hrest⟩
  · unfold resultLines
    split
    · nofun
    · simp only [List.forall_mem_cons]
      exact ⟨List.forall_mem_nil _, hpad.append hreturns, hpad.append htodo, nofun⟩

theorem stub_eq : s.stub indent = (s.stubLines indent).flatMap (· ++ [Byte.lf]) := by
  have hopen : Text.ofString "\"\"\"TODO: Describe " =
      Delimiter.triple ++ Text.ofString "TODO: Describe " := rfl
  have hstop : Text.ofString ".\n" = Text.ofString "." ++ [Byte.lf] := rfl
  have hclose : Text.ofString "\"\"\"\n" = Delimiter.triple ++ [Byte.lf] := rfl
  simp only [stub, stubLines, sectionLines, phrase, argumentSection_eq, resultSection_eq, hopen,
    hstop, hclose, List.flatMap_cons, List.flatMap_append, List.flatMap_nil, List.append_assoc,
    List.append_nil]

theorem lines_stub (hname : Token.IsName s.name) (harguments : ∀ a ∈ s.arguments, Token.IsName a) :
    (s.stub indent).lines = s.stubLines indent := by
  have hquotes : Byte.lf ∉ padding indent ++ Delimiter.triple ∧
      Byte.cr ∉ padding indent ++ Delimiter.triple := no_ending_opening indent [] (by decide)
  rw [stub_eq, Text.lines_flatMap_feed]
  simp only [stubLines, List.forall_mem_cons, List.forall_mem_append]
  exact ⟨no_ending_opening indent _ (isSentence_phrase hname).no_ending,
    fun l hl => (isSentence_sectionLines indent harguments l hl).no_ending, hquotes, nofun⟩

theorem trim_phrase : Text.trim s.phrase = s.phrase := by
  have hends : s.phrase = 84 :: (Text.ofString "ODO: Describe " ++ s.name) ++ [Byte.dot] := rfl
  exact hends ▸ Text.trim_append (List.forall_mem_nil _) rfl rfl _

/-- How a function stub is assessed. -/
theorem assess_stubLines (hname : Token.IsName s.name)
    (harguments : ∀ a ∈ s.arguments, Token.IsName a) (above below : List Text) :
    assess (above ++ (s.stubLines indent ++ below)) above.length =
      assessLines (s.phrase :: ((s.sectionLines indent).map Text.trim ++ [[]])) := by
  have hphrase := Delimiter.find_noQuote (isSentence_phrase hname).noQuote
  have hinside : (padding indent ++ (Delimiter.triple ++ s.phrase)).drop
      ((padding indent).length + 3) = s.phrase := by
    rw [← List.append_assoc]
    exact List.drop_left' (by rw [List.length_append]; rfl)
  have hclosing := find_opening indent []
  rw [List.append_nil] at hclosing
  have hpad : Text.trim (padding indent) = [] := by
    rw [Text.trim, Text.trimLeft, ← List.append_nil (padding indent),
      List.dropWhile_append_of_pos (isSpace_padding indent)]
    rfl
  have hsections : ∀ l ∈ s.sectionLines indent, NoQuote l := fun l hl =>
    (isSentence_sectionLines indent harguments l hl).noQuote
  have hrest : contentAfter
      (s.sectionLines indent ++ (padding indent ++ Delimiter.triple) :: below) =
        (s.sectionLines indent).map Text.trim ++ [[]] := by
    rw [contentAfter_append hsections, contentAfter, hclosing]
    simp only [List.take_left, hpad]
  rw [assess, List.drop_left, stubLines, List.cons_append, List.append_assoc,
    List.singleton_append]
  simp only [find_opening]
  rw [hinside, hphrase]
  simp only [hrest, trim_phrase]

/-- The titles of the sections that a stub has. -/
theorem sections_listed (s : Signature) (indent : UInt32) :
    (s.arguments ≠ [] → ((s.sectionLines indent).map Text.trim).any startsParams = true) ∧
      (s.hasResult = true → ((s.sectionLines indent).map Text.trim).any startsReturns = true) := by
  have hargs : Text.trim (padding indent ++ "Args:") = "Args:" :=
    Text.trim_append (isSpace_padding indent) rfl rfl "rgs"
  have hresult : Text.trim (padding indent ++ "Returns:") = "Returns:" :=
    Text.trim_append (isSpace_padding indent) rfl rfl "eturns"
  rw [sectionLines, List.map_append, List.any_append, List.any_append]
  constructor
  · intro hne
    obtain ⟨name, names, hnames⟩ := List.exists_cons_of_ne_nil hne
    have hany : ((argumentLines (padding indent) s.arguments).map Text.trim).any startsParams =
        true := by
      rw [hnames]
      exact List.any_eq_true.2 ⟨"Args:", by simp [argumentLines, hargs], by decide⟩
    rw [hany, Bool.true_or]
  · intro hreturns
    have hany : ((resultLines (padding indent) s.hasResult).map Text.trim).any startsReturns =
        true := by
      rw [hreturns]
      exact List.any_eq_true.2 ⟨"Returns:", by simp [resultLines, hresult], by decide⟩
    rw [hany, Bool.or_true]

/-- **The stub of a function says enough**, wherever it stands, or has no sections. -/
theorem verdict_stub (hname : Token.IsName s.name) (harguments : ∀ a ∈ s.arguments, Token.IsName a)
    (above below : List Text) :
    let verdict := (assess (above ++ (s.stubLines indent ++ below)) above.length).verdict
    verdict = .comprehensive ∨
      verdict = .missingSections ∧ s.arguments = [] ∧ s.hasResult = false := by
  intro verdict
  have hlong : minSize ≤ s.phrase.length := by
    have hfront : (Text.ofString "TODO: Describe ").length = 15 := rfl
    rw [phrase, List.length_append, List.length_append, hfront, minSize]
    omega
  have hspace : s.phrase.any (· == Byte.space) = true := by
    rw [phrase, List.any_append, List.any_append]
    rfl
  obtain ⟨hparams, hreturns⟩ := sections_listed s indent
  have hassess := congrArg Assessment.verdict (assess_stubLines indent hname harguments above below)
  rcases verdict_of_described hlong hspace ((s.sectionLines indent).map Text.trim ++ [[]]) with
    h | ⟨h, hnoParams, hnoReturns⟩
  · exact .inl (hassess.trans h)
  · rw [List.any_append, Bool.or_eq_false_iff] at hnoParams hnoReturns
    refine .inr ⟨hassess.trans h, ?_, ?_⟩
    · apply Classical.byContradiction
      intro hne
      rw [hparams hne] at hnoParams
      cases hnoParams.1
    · cases hresult : s.hasResult with
      | false => rfl
      | true =>
        rw [hreturns hresult] at hnoReturns
        cases hnoReturns.1

end

end Signature

end Docstring

end MojoLint
