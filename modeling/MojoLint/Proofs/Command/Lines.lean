import MojoLint.Command.Request
import MojoLint.Proofs.Command.Numeral

/-!
# The form of command lines

Command lines are described here by how they are written, not by how they are read. A line is out of
order when its first two words are not a command and a path (`Disordered`). Otherwise it is
well-formed when settings follow, each flag at most once and in any of its spellings (`Asks`).
Reading a well-formed line gives back what it was written from (`ofArguments_of_asks`), and no line
that is out of order asks for anything (`ofArguments_of_disordered`).
-/

namespace MojoLint.Command

/-- The words that ask for help or for the version. -/
def helpWords : List Text := ["-h", "-help", "--help", "--help-hidden", "-version", "--version"]

/-- A command line that has no word, or whose first two words are not a command and a path. Words
that ask for help are left aside. -/
inductive Disordered : List Text → Prop
  | empty : Disordered []
  | notCommand {word : Text} (rest : List Text) :
    (∀ verb, (word, verb) ∉ Verb.words) → word ∉ helpWords → Disordered (word :: rest)
  | noPath {word : Text} {verb : Verb} : (word, verb) ∈ Verb.words → Disordered [word]
  | flagBeforePath {word path : Text} {verb : Verb} (rest : List Text) :
    (word, verb) ∈ Verb.words → isFlag path = true → path ∉ helpWords →
    Disordered (word :: path :: rest)

def Switch.name : Switch → Text
  | .showObservations => "show-observations"
  | .checkDocs => "check-docstring-code"
  | .disableBackup => "disable-backup"
  | .keepBackups => "keep-backups"
  | .autoCleanup => "auto-cleanup"
  | .enableAutoFix => "enable-auto-fix"
  | .verbose => "verbose"

/-- A flag as it is written, with one dash or with two. A switch has a value behind an equals sign
or none. The retention is a 32-bit number, written in any base, in the same word or in the next
one. -/
inductive Setting where
  | switch (s : Switch) (on : Bool) (value : Option Text) (double : Bool)
    (means : (value.getD [], on) ∈ Switch.values)
  | retention (days : Int32) (value : Text) (double joined : Bool)
    (means : IsNumeral value days.toInt)

namespace Setting

/-- The switch of a setting. The retention has none. -/
def switch? : Setting → Option Switch
  | .switch s .. => some s
  | .retention .. => none

def dashes (double : Bool) : Text := if double then "--" else "-"

/-- A value behind an equals sign. -/
def valued : Option Text → Text
  | some value => "=" ++ value
  | none => []

/-- The words of a setting. -/
def words : Setting → List Text
  | .switch s _ value double _ => [dashes double ++ (s.name ++ valued value)]
  | .retention _ value double true _ =>
    [dashes double ++ ("retention-days" ++ valued (some value))]
  | .retention _ value double false _ => [dashes double ++ "retention-days", value]

/-- The flags after a setting. -/
def apply (f : Flags) : Setting → Flags
  | .switch s on .. => f.set on s
  | .retention days .. => { f with retentionDays := days.toInt }

end Setting

/-- A command line asks for a request by its command, its path and settings of different flags. -/
def Asks (arguments : List Text) (r : Request) : Prop :=
  ∃ (word : Text) (settings : List Setting), (word, r.verb) ∈ Verb.words ∧ isFlag r.path = false ∧
    (settings.map Setting.switch?).Nodup ∧ r.flags = settings.foldl Setting.apply .standard ∧
    arguments = word :: r.path :: settings.flatMap Setting.words

/-! ## Reading flags -/

theorem isFlag_dashes (double : Bool) (flag : Text) :
    isFlag (Setting.dashes double ++ flag) = true := by
  cases double <;> rfl

theorem withoutDashes_dashes (double : Bool) {flag : Text} (h : isFlag flag = false) :
    withoutDashes (Setting.dashes double ++ flag) = flag := by
  cases double with
  | true => rfl
  | false =>
    have hsingle : Text.startsWith ("-" ++ flag) "--" = isFlag flag := rfl
    unfold withoutDashes Setting.dashes
    simp only [Bool.false_eq_true, if_false]
    rw [hsingle, h]
    rfl

theorem nameAndValue_valued {name : Text} (h : Byte.equals ∉ name) (value : Option Text) :
    nameAndValue (name ++ Setting.valued value) = (name, value) := by
  have hname : ∀ b ∈ name, (b != Byte.equals) = true := by
    intro b hb
    rw [bne_iff_ne]
    rintro rfl
    exact h hb
  unfold nameAndValue
  rw [List.dropWhile_append_of_pos hname, List.takeWhile_append_of_pos hname]
  cases value with
  | none =>
    simp only [Setting.valued, List.dropWhile_nil, List.append_nil]
  | some value =>
    have hrest : Setting.valued (some value) = Byte.equals :: value := rfl
    rw [hrest, List.dropWhile_cons_of_neg (by decide), List.takeWhile_cons_of_neg (by decide),
      List.append_nil]

/-- The name of a switch is that of a flag. -/
theorem name_spec (s : Switch) :
    Switch.ofName? s.name = some s ∧ Byte.equals ∉ s.name ∧
      ∀ t, isFlag (s.name ++ t) = false := by
  cases s <;> exact ⟨rfl, by decide, fun _ => rfl⟩

theorem isOn?_of_mem {value : Text} {on : Bool} (h : (value, on) ∈ Switch.values) :
    Switch.isOn? value = some on := by
  simp only [Switch.values, List.mem_cons, Prod.mk.injEq, List.not_mem_nil, or_false] at h
  rcases h with ⟨rfl, rfl⟩ | ⟨rfl, rfl⟩ | ⟨rfl, rfl⟩ | ⟨rfl, rfl⟩ | ⟨rfl, rfl⟩ | ⟨rfl, rfl⟩ |
    ⟨rfl, rfl⟩ | ⟨rfl, rfl⟩ | ⟨rfl, rfl⟩ <;> rfl

theorem fits_toInt (days : Int32) : fits days.toInt = true := by
  simp only [fits, Bool.and_eq_true, decide_eq_true_eq]
  exact ⟨days.minValue_le_toInt, days.toInt_le⟩

/-- Reading the words of a setting leaves the words behind them to be read. -/
theorem read_words (f : Flags) (setting : Setting) (rest : List Text) :
    f.read (setting.words ++ rest) = (setting.apply f).read rest := by
  have hequals : Byte.equals ∉ Text.ofString "retention-days" := by decide
  have hnone : Switch.ofName? "retention-days" = none := rfl
  match setting with
  | .switch s on value double means =>
    obtain ⟨hname, hsign, hflag⟩ := name_spec s
    rw [Setting.words, List.singleton_append, Flags.read.eq_def]
    simp only [isFlag_dashes, withoutDashes_dashes double (hflag _), nameAndValue_valued hsign,
      hname, isOn?_of_mem means]
    rfl
  | .retention days value double true means =>
    have hvalue := intValue?_eq_some_iff.2 ⟨means, fits_toInt days⟩
    have hflag : isFlag ("retention-days" ++ Setting.valued (some value)) = false := rfl
    rw [Setting.words, List.singleton_append, Flags.read.eq_def]
    simp only [isFlag_dashes, withoutDashes_dashes double hflag, nameAndValue_valued hequals,
      hnone, hvalue]
    rfl
  | .retention days value double false means =>
    have hvalue := intValue?_eq_some_iff.2 ⟨means, fits_toInt days⟩
    have hflag : isFlag "retention-days" = false := rfl
    have hname := nameAndValue_valued hequals none
    rw [Setting.valued, List.append_nil] at hname
    rw [Setting.words, List.cons_append, List.singleton_append, Flags.read.eq_def]
    simp only [isFlag_dashes, withoutDashes_dashes double hflag, hname, hnone, hvalue]
    rfl

theorem read_flatMap_words (f : Flags) (settings : List Setting) :
    f.read (settings.flatMap Setting.words) = .ok (settings.foldl Setting.apply f) := by
  induction settings generalizing f with
  | nil => rfl
  | cons setting settings ih =>
    rw [List.flatMap_cons, read_words, ih, List.foldl_cons]

/-! ## Reading lines -/

theorem ofWord?_of_mem {word : Text} {verb : Verb} (h : (word, verb) ∈ Verb.words) :
    Verb.ofWord? word = some verb := by
  simp only [Verb.words, List.mem_cons, Prod.mk.injEq, List.not_mem_nil, or_false] at h
  rcases h with ⟨rfl, rfl⟩ | ⟨rfl, rfl⟩ | ⟨rfl, rfl⟩ | ⟨rfl, rfl⟩ | ⟨rfl, rfl⟩ <;> rfl

theorem mem_of_ofWord? {word : Text} {verb : Verb} (h : Verb.ofWord? word = some verb) :
    (word, verb) ∈ Verb.words := by
  obtain ⟨entry, hentry, rfl⟩ := Option.map_eq_some_iff.1 h
  have hword : entry.1 = word := by simpa using List.find?_some hentry
  rw [← hword]
  exact List.mem_of_find?_eq_some hentry

theorem ofArguments_of_disordered {arguments : List Text} (h : Disordered arguments) :
    ∃ rejection, Request.ofArguments arguments = .error rejection := by
  cases h with
  | empty => exact ⟨_, rfl⟩
  | @notCommand word rest hword _ =>
    cases hverb : Verb.ofWord? word with
    | none => exact ⟨_, by rw [Request.ofArguments, hverb]⟩
    | some verb => exact absurd (mem_of_ofWord? hverb) (hword verb)
  | noPath hword => exact ⟨_, by rw [Request.ofArguments, ofWord?_of_mem hword]⟩
  | flagBeforePath rest hword hpath _ =>
    rw [Request.ofArguments, ofWord?_of_mem hword]
    exact ⟨_, if_pos hpath⟩

theorem ofArguments_of_asks {arguments : List Text} {r : Request} (h : Asks arguments r) :
    Request.ofArguments arguments = .ok r := by
  obtain ⟨word, settings, hword, hpath, -, hflags, rfl⟩ := h
  rw [Request.ofArguments, ofWord?_of_mem hword]
  simp only [hpath, Bool.false_eq_true, if_false, read_flatMap_words, ← hflags]

end MojoLint.Command
