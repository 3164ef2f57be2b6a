import MojoLint.Command.Numeral

/-!
# Command lines

A command line is a command, a path and flags, in this order. A flag starts with one or two
dashes, and its value may stand behind an equals sign.
-/

namespace MojoLint.Command

/-- What the tool can do. -/
inductive Verb where
  | scan
  | validate
  | fix
  | report
  | cleanup
deriving DecidableEq

/-- The commands by their words. -/
def Verb.words : List (Text × Verb) :=
  [("scan", .scan), ("validate", .validate), ("fix", .fix), ("report", .report),
   ("cleanup", .cleanup)]

/-- The command of a word. -/
def Verb.ofWord? (word : Text) : Option Verb :=
  (Verb.words.find? fun entry => entry.1 = word).map Prod.snd

/-- The flags of a command line. -/
structure Flags where
  showObservations : Bool
  checkDocs : Bool
  disableBackup : Bool
  keepBackups : Bool
  autoCleanup : Bool
  enableAutoFix : Bool
  verbose : Bool
  retentionDays : Int
deriving DecidableEq

/-- The flags of a command line that gives none. -/
def Flags.standard : Flags := ⟨false, false, false, false, false, false, false, 7⟩

/-- What a command line asks for. -/
structure Request where
  verb : Verb
  path : Text
  flags : Flags
deriving DecidableEq

/-- Why a command line asks for nothing. -/
inductive Rejection where
  | empty
  | flagFirst
  | unknownCommand (word : Text)
  | noPath (word : Text)
  | flagBeforePath (word : Text)
  | badFlag (word : Text)
deriving DecidableEq

/-- The message about a rejected command line. An empty one needs none. -/
def Rejection.message? : Rejection → Option Text
  | .empty => none
  | .flagFirst => some "the command must come before any flag"
  | .unknownCommand word => some ("unknown command '" ++ word ++ "'")
  | .noPath word => some ("'" ++ word ++ "' needs a path")
  | .flagBeforePath word =>
    some ("the path must come right after '" ++ word ++ "', before any flag")
  | .badFlag word => some ("bad flag '" ++ word ++ "'")

/-- Whether an argument is written like a flag. -/
def isFlag (argument : Text) : Bool := Text.startsWith argument "-"

/-- The flags that are on or off. -/
inductive Switch where
  | showObservations
  | checkDocs
  | disableBackup
  | keepBackups
  | autoCleanup
  | enableAutoFix
  | verbose
deriving DecidableEq

/-- The switches by their names. -/
def Switch.names : List (Text × Switch) :=
  [("show-observations", .showObservations), ("check-docstring-code", .checkDocs),
   ("disable-backup", .disableBackup), ("keep-backups", .keepBackups),
   ("auto-cleanup", .autoCleanup), ("enable-auto-fix", .enableAutoFix), ("verbose", .verbose)]

/-- The switch of a name. -/
def Switch.ofName? (name : Text) : Option Switch :=
  (Switch.names.find? fun entry => entry.1 = name).map Prod.snd

/-- The values of a switch. A switch without a value, or with an empty one, is on. -/
def Switch.values : List (Text × Bool) :=
  [("", true), ("true", true), ("TRUE", true), ("True", true), ("1", true),
   ("false", false), ("FALSE", false), ("False", false), ("0", false)]

/-- Whether a switch is on, by its value. -/
def Switch.isOn? (value : Text) : Option Bool :=
  (Switch.values.find? fun entry => entry.1 = value).map Prod.snd

/-- The flags with a switch on or off. -/
def Flags.set (f : Flags) (on : Bool) : Switch → Flags
  | .showObservations => { f with showObservations := on }
  | .checkDocs => { f with checkDocs := on }
  | .disableBackup => { f with disableBackup := on }
  | .keepBackups => { f with keepBackups := on }
  | .autoCleanup => { f with autoCleanup := on }
  | .enableAutoFix => { f with enableAutoFix := on }
  | .verbose => { f with verbose := on }

/-- A flag without its dashes. -/
def withoutDashes (argument : Text) : Text :=
  if Text.startsWith argument "--" then argument.drop 2 else argument.drop 1

/-- The name of a flag and the value behind the first equals sign, if there is one. -/
def nameAndValue (flag : Text) : Text × Option Text :=
  match flag.dropWhile (· != Byte.equals) with
  | [] => (flag, none)
  | _ :: value => (flag.takeWhile (· != Byte.equals), some value)

/-- The flags with those of the arguments added. A switch can only have a value behind an equals
sign. That of the retention stands there or in the next argument. -/
def Flags.read (f : Flags) : List Text → Except Rejection Flags
  | [] => .ok f
  | argument :: rest =>
    let (name, value?) := nameAndValue (withoutDashes argument)
    if !isFlag argument then .error (.badFlag argument)
    else
      match Switch.ofName? name with
      | some s =>
        match Switch.isOn? (value?.getD []) with
        | some on => (f.set on s).read rest
        | none => .error (.badFlag argument)
      | none =>
        if name = "retention-days" then
          match value? with
          | some value =>
            match intValue? value with
            | some days => { f with retentionDays := days }.read rest
            | none => .error (.badFlag argument)
          | none =>
            match rest with
            | value :: rest =>
              match intValue? value with
              | some days => { f with retentionDays := days }.read rest
              | none => .error (.badFlag argument)
            | [] => .error (.badFlag argument)
        else .error (.badFlag argument)

/-- What a command line asks for. The command is looked at first, then the path, then the flags. -/
def Request.ofArguments : List Text → Except Rejection Request
  | [] => .error .empty
  | word :: rest =>
    match Verb.ofWord? word with
    | none => .error (if isFlag word then .flagFirst else .unknownCommand word)
    | some verb =>
      match rest with
      | [] => .error (.noPath word)
      | path :: arguments =>
        if isFlag path then .error (.flagBeforePath word)
        else
          match Flags.standard.read arguments with
          | .ok flags => .ok ⟨verb, path, flags⟩
          | .error rejection => .error rejection

end MojoLint.Command
