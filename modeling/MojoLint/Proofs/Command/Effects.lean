import MojoLint.Command.Run
import MojoLint.Proofs.Backup.Cleanup
import MojoLint.Proofs.Command.Lines
import MojoLint.Proofs.Repair.Safety

/-!
# What a command line does

Each command is described twice: by what it may do to the store (`Request.Permits`) and by when all
is well with it (`Request.Succeeds`). `Lawful` puts the two together for an answer, and
`run_lawful` says that every answer to a well-formed command line is lawful, on every store and
medium, while a line that is out of order does nothing.

Only `fix` writes and only `cleanup` erases. The frame of `fix` comes from the safety of repairs, as
the standard validator looks at the store without changing it.
-/

namespace MojoLint

theorem Validator.standard_readOnly : Validator.standard.ReadOnly := by
  intro s path
  simp only [Validator.standard]
  split <;> rfl

namespace Repair

open Store (Medium)

/-- A repair that is only planned writes nothing. -/
theorem store_run_of_not_apply {o : Options} (h : o.apply = false) (v : Option Validator)
    (m : Medium) (s : Store) (path : Text) (findings : List Finding) :
    (run o v m s path findings).store = s := by
  unfold run
  split
  · rfl
  · simp only [h, Bool.not_false, if_true]
    split <;> rfl

/-- A repair changes at most its file and the backup of it. -/
theorem get?_run {o : Options} {v : Option Validator} (hv : ∀ w ∈ v, w.ReadOnly) (m : Medium)
    (s : Store) (path : Text) (findings : List Finding) {q : Route}
    (hq : s.resolve path ≠ .ok q) (hb : s.resolve (Path.backup path) ≠ .ok q) :
    (run o v m s path findings).store.get? q = s.get? q := by
  unfold run
  split
  · rfl
  · rename_i old hold
    obtain ⟨r, written, hr, hw⟩ := Store.read_eq_ok_iff.1 hold
    simp only
    split
    · rfl
    · split
      · rfl
      · exact (carryOut_safe hr hw hv _).frame q hq hb

end Repair

namespace Command

open Store (Medium)

/-- What a request may do to a store: only `fix` writes, and only where it was told to, and only
`cleanup` takes files away. -/
def Request.Permits (r : Request) (s s' : Store) : Prop :=
  match r.verb with
  | .scan | .report | .validate => s' = s
  | .fix =>
    (r.flags.enableAutoFix = false → s' = s) ∧
      ∀ q, s.resolve r.path ≠ .ok q → s.resolve (Path.backup r.path) ≠ .ok q →
        s'.get? q = s.get? q
  | .cleanup =>
    ∀ q, s'.get? q = s.get? q ∨
      s'.get? q = none ∧ ∃ root, s.resolve r.path = .ok root ∧ Cleanup.IsBackupBelow s root q

/-- The repair that `fix` makes of a file with the given text. -/
def Request.outcome (m : Medium) (s : Store) (r : Request) (text : Text) : Repair.Outcome :=
  Repair.run r.flags.repair (some .standard) m s r.path
    (Checker.check r.flags.checker r.path text).findings

/-- All is well with what a request asks for. -/
def Request.Succeeds (m : Medium) (s : Store) (r : Request) : Prop :=
  match r.verb with
  | .scan | .report => s.isDirectory r.path = true
  | .validate => ∀ f ∈ (Checker.checkFile r.flags.checker s r.path).findings, f.severity ≠ .error
  | .fix => ∃ text, s.read r.path = .ok text ∧
    ((r.outcome m s text).status = .nothingToFix ∨ (r.outcome m s text).status = .planned ∨
      (r.outcome m s text).status = .applied)
  | .cleanup => s.isDirectory r.path = true ∧
    (Cleanup.run s r.path r.flags.retentionDays).2.failures = []

/-- An answer to a request does only what is permitted, and its exit code tells how it went. -/
structure Lawful (m : Medium) (s : Store) (r : Request) (a : Answer) : Prop where
  permitted : r.Permits s a.store
  refused : a.exit = 2 ↔ r.flags.retentionDays < 0
  good : a.exit = 0 ↔ 0 ≤ r.flags.retentionDays ∧ r.Succeeds m s
  bad : a.exit = 1 ↔ 0 ≤ r.flags.retentionDays ∧ ¬ r.Succeeds m s

/-- The exit code of a request that is carried out says whether it succeeded. -/
def ExitFits (p : Prop) (exit : UInt32) : Prop := exit = 0 ∧ p ∨ exit = 1 ∧ ¬p

/-! ## The commands -/

section Commands

variable (m : Medium) (s : Store) (path : Text) (f : Flags)

theorem runScan_spec (style : Style) :
    (runScan style s path f).store = s ∧
      ExitFits (s.isDirectory path = true) (runScan style s path f).exit := by
  unfold runScan
  split
  · rename_i h
    exact ⟨rfl, .inl ⟨rfl, h⟩⟩
  · rename_i h
    exact ⟨rfl, .inr ⟨rfl, h⟩⟩

theorem runValidate_spec :
    (runValidate s path f).store = s ∧
      ExitFits (∀ g ∈ (Checker.checkFile f.checker s path).findings, g.severity ≠ .error)
        (runValidate s path f).exit := by
  refine ⟨rfl, ?_⟩
  have hcount : 0 < (Checker.checkFile f.checker s path).count .error ↔
      ¬ ∀ g ∈ (Checker.checkFile f.checker s path).findings, g.severity ≠ .error := by
    simp [Report.count, List.countP_pos_iff]
  unfold runValidate
  by_cases h : 0 < (Checker.checkFile f.checker s path).count .error
  · exact .inr ⟨if_pos h, hcount.1 h⟩
  · exact .inl ⟨if_neg h, not_not.1 (mt hcount.2 h)⟩

theorem repairAnswer_spec (o : Repair.Outcome) :
    (repairAnswer path f o).store = o.store ∧
      ExitFits (o.status = .nothingToFix ∨ o.status = .planned ∨ o.status = .applied)
        (repairAnswer path f o).exit := by
  unfold repairAnswer ExitFits
  cases o.status <;> simp

theorem runCleanup_exit :
    ExitFits (s.isDirectory path = true ∧ (Cleanup.run s path f.retentionDays).2.failures = [])
      (runCleanup s path f).exit := by
  unfold runCleanup
  by_cases hdir : s.isDirectory path = true
  · rw [if_pos hdir]
    by_cases hfail : (Cleanup.run s path f.retentionDays).2.failures = []
    · refine .inl ⟨?_, hdir, hfail⟩
      simp [hfail]
    · refine .inr ⟨?_, fun h => hfail h.2⟩
      simp [hfail]
  · rw [if_neg hdir]
    exact .inr ⟨rfl, fun h => hdir h.1⟩

theorem runCleanup_store (hs : s.Distinct) (q : Route) :
    (runCleanup s path f).store.get? q = s.get? q ∨
      (runCleanup s path f).store.get? q = none ∧
        ∃ root, s.resolve path = .ok root ∧ Cleanup.IsBackupBelow s root q := by
  unfold runCleanup
  split
  · exact Cleanup.run_removes hs path f.retentionDays q
  · exact .inl rfl

end Commands

/-! ## Requests -/

theorem runFix_spec (m : Medium) (s : Store) {r : Request} (hr : r.verb = .fix) :
    r.Permits s (runFix m s r.path r.flags).store ∧
      ExitFits (r.Succeeds m s) (runFix m s r.path r.flags).exit := by
  simp only [Request.Permits, Request.Succeeds, hr]
  unfold runFix
  cases hread : s.read r.path with
  | error fault => exact ⟨⟨fun _ => rfl, fun _ _ _ => rfl⟩, .inr ⟨rfl, nofun⟩⟩
  | ok text =>
    obtain ⟨hstore, hexit⟩ := repairAnswer_spec r.path r.flags (r.outcome m s text)
    refine ⟨⟨?_, ?_⟩, ?_⟩
    · intro happly
      exact hstore.trans (Repair.store_run_of_not_apply happly _ m s r.path _)
    · intro q hq hb
      have hframe := Repair.get?_run (o := r.flags.repair) (v := some .standard)
        (by rintro w ⟨⟩; exact Validator.standard_readOnly) m s r.path
        (Checker.check r.flags.checker r.path text).findings hq hb
      exact (congrArg (·.get? q) hstore).trans hframe
    · simp only [Except.ok.injEq, exists_eq_left']
      exact hexit

/-- What a request that is not refused leads to. -/
theorem run_spec (m : Medium) {s : Store} (hs : s.Distinct) {r : Request}
    (hr : ¬ r.flags.retentionDays < 0) :
    r.Permits s (r.run m s).store ∧ ExitFits (r.Succeeds m s) (r.run m s).exit := by
  unfold Request.run
  rw [if_neg hr]
  cases hverb : r.verb with
  | fix => exact runFix_spec m s hverb
  | scan =>
    simp only [Request.Permits, Request.Succeeds, hverb]
    exact runScan_spec s r.path r.flags .brief
  | report =>
    simp only [Request.Permits, Request.Succeeds, hverb]
    exact runScan_spec s r.path r.flags .detailed
  | validate =>
    simp only [Request.Permits, Request.Succeeds, hverb]
    exact runValidate_spec s r.path r.flags
  | cleanup =>
    simp only [Request.Permits, Request.Succeeds, hverb]
    exact ⟨runCleanup_store s r.path r.flags hs, runCleanup_exit s r.path r.flags⟩

theorem Request.permits_refl (r : Request) (s : Store) : r.Permits s s := by
  unfold Permits
  split
  · rfl
  · rfl
  · rfl
  · exact ⟨fun _ => rfl, fun _ _ _ => rfl⟩
  · exact fun _ => .inl rfl

theorem lawful_run (m : Medium) {s : Store} (hs : s.Distinct) (r : Request) :
    Lawful m s r (r.run m s) := by
  by_cases hdays : r.flags.retentionDays < 0
  · have hrun : r.run m s = ⟨s, 2, [], errorLine "--retention-days must not be negative"⟩ :=
      if_pos hdays
    have hnot : ¬ 0 ≤ r.flags.retentionDays := Int.not_le.2 hdays
    rw [hrun]
    exact ⟨r.permits_refl s, by simp [hdays], by simp [hnot], by simp [hnot]⟩
  · obtain ⟨hstore, hexit⟩ := run_spec m hs hdays
    have hle : 0 ≤ r.flags.retentionDays := Int.not_lt.1 hdays
    refine ⟨hstore, ?_, ?_, ?_⟩ <;> rcases hexit with ⟨h, hp⟩ | ⟨h, hp⟩ <;> simp [h, hp, hle, hdays]

/-- **Effects and exit codes.** On every store and medium, a command line that is out of order does
nothing and is refused, and one that asks for a request is answered lawfully. -/
theorem run_lawful (m : Medium) {s : Store} (hs : s.Distinct) (arguments : List Text) :
    (Disordered arguments → (run m s arguments).store = s ∧ (run m s arguments).exit = 2) ∧
      ∀ r, Asks arguments r → Lawful m s r (run m s arguments) := by
  refine ⟨fun h => ?_, fun r h => ?_⟩
  · obtain ⟨rejection, hrejected⟩ := ofArguments_of_disordered h
    unfold run
    rw [hrejected]
    exact ⟨rfl, rfl⟩
  · unfold run
    rw [ofArguments_of_asks h]
    exact lawful_run m hs r

/-- A line with a flag in front is refused, and a cleanup without retention takes away the backup
and nothing else. -/
theorem run_lawful_of_backup :
    let s : Store := ⟨[(["d"], .directory), (["d", "f.mojo"], .file "x" 0),
      (["d", "f.mojo.backup"], .file "y" 0)], 0⟩
    let r : Request := ⟨.cleanup, "d", { Flags.standard with retentionDays := 0 }⟩
    let arguments : List Text := ["cleanup", "d", "-retention-days", "0"]
    s.Distinct ∧ Disordered ["--verbose", "scan"] ∧ (run .sound s ["--verbose", "scan"]).exit = 2 ∧
      Asks arguments r ∧ r.Succeeds .sound s ∧ (run .sound s arguments).exit = 0 ∧
      (run .sound s arguments).store.get? ["d", "f.mojo.backup"] = none ∧
      (run .sound s arguments).store.get? ["d", "f.mojo"] = some (.file "x" 0) := by
  intro s r arguments
  have hs : s.Distinct := by decide +kernel
  have hfirst : Disordered ["--verbose", "scan"] :=
    .notCommand ["scan"] (fun verb => by cases verb <;> decide +kernel) (by decide +kernel)
  have hasks : Asks arguments r :=
    ⟨"cleanup", [.retention 0 "0" false false (isNumeral_ofInt 0)], by decide +kernel,
      by decide +kernel, by simp, rfl, by decide +kernel⟩
  have hgood : r.Succeeds .sound s := by
    refine ⟨?_, ?_⟩ <;> decide +kernel
  have hlawful := (run_lawful .sound hs arguments).2 r hasks
  refine ⟨hs, hfirst, ((run_lawful .sound hs _).1 hfirst).2, hasks, hgood,
    hlawful.good.2 ⟨by decide, hgood⟩, ?_, ?_⟩ <;> decide +kernel

end Command

end MojoLint
