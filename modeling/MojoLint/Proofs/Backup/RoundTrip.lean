import MojoLint.Proofs.Repair.Safety

/-!
# What a backup brings back

Between making a backup and restoring it anything may happen to a store: files come and go, other
files are backed up and repaired, and any write may break off. `Step` is one such event, and
`Step.Aims` says from the paths it was given which entries it is about. A step keeps every entry
that it is not about (`Step.get?_run`), so the entry of a backup outlasts every run that spares it
(`get?_runAll`). As a path leads to the same route in every store, restoring then finds what was
backed up, and puts it where it came from (`restore_runAll`).
-/

namespace MojoLint

/-! ## What a repair leaves alone -/

namespace Backup

open Store (Delivery)

variable {path : Text} {q : Route}

theorem get?_create_of_ne (s : Store) (h : q ≠ Path.route (Path.backup path))
    (delivery : Text → Delivery) : (create s path delivery).store.get? q = s.get? q := by
  rw [store_create]
  exact s.get?_copy_of_ne path h delivery

theorem get?_restore_of_ne (s : Store) (h : q ≠ Path.route path) (delivery : Text → Delivery) :
    (restore s path delivery).store.get? q = s.get? q :=
  s.get?_copy_of_ne (Path.backup path) h delivery

theorem get?_discard_of_ne (s : Store) (h : q ≠ Path.route (Path.backup path)) :
    (discard s path).store.get? q = s.get? q :=
  s.get?_remove_of_ne h

end Backup

namespace Repair

open Store (Medium)

section Frame

variable {o : Options} {v : Option Validator} {path : Text} {q : Route}
  (hfile : q ≠ Path.route path)
  (hbackup : o.backup = true → q ≠ Path.route (Path.backup path))
  (hvalidator : ∀ w ∈ v, ∀ s, (w.judge s path).store.get? q = s.get? q)

include hfile in
theorem get?_rollback_of_ne (m : Medium) (s : Store) (content : Text) :
    (rollback o m s path content).store.get? q = s.get? q := by
  unfold rollback
  split
  · exact Backup.get?_restore_of_ne s hfile _
  · exact s.get?_write_of_ne hfile content _

include hbackup in
theorem get?_settle_of_ne (s : Store) (backup : Option Text) :
    (settle o s path backup).1.get? q = s.get? q := by
  unfold settle
  split
  · rename_i h
    simp only [Bool.and_eq_true] at h
    have hdiscard := Backup.get?_discard_of_ne s (hbackup h.1.1)
    simp only
    split <;> exact hdiscard
  · rfl

include hvalidator in
theorem get?_validate (s : Store) : (validate v s path).store.get? q = s.get? q := by
  cases v with
  | none => rfl
  | some w => exact hvalidator w rfl s

include hfile hbackup hvalidator in
theorem get?_overwrite_of_ne (m : Medium) (s : Store) (old new : Text)
    (selection : Edit.Selection) (backup : Option Text) :
    (overwrite o v m s path old new selection backup).store.get? q = s.get? q := by
  have hwritten := s.get?_write_of_ne hfile new (m .repair)
  have hjudged := get?_validate hvalidator (s.write path new (m .repair)).store
  unfold overwrite
  simp only
  split
  · exact (get?_rollback_of_ne hfile m _ old).trans hwritten
  · split
    · exact (get?_rollback_of_ne hfile m _ old).trans (hjudged.trans hwritten)
    · exact (get?_settle_of_ne hbackup _ backup).trans (hjudged.trans hwritten)

include hfile hbackup hvalidator in
theorem get?_carryOut_of_ne (m : Medium) (s : Store) (old : Text) (selection : Edit.Selection) :
    (carryOut o v m s path old selection).store.get? q = s.get? q := by
  have hsaved : (if o.backup then Backup.create s path (m .backup)
      else ⟨s, none⟩).store.get? q = s.get? q := by
    split
    · rename_i h
      exact Backup.get?_create_of_ne s (hbackup h) _
    · rfl
  unfold carryOut
  simp only
  split
  · exact hsaved
  · split
    · exact hsaved
    · exact (get?_overwrite_of_ne hfile hbackup hvalidator m _ old _ selection _).trans hsaved

include hfile hbackup hvalidator in
/-- A repair keeps the entries that neither its paths nor its validator are about. -/
theorem get?_run_of_ne (m : Medium) (s : Store) (findings : List Finding) :
    (run o v m s path findings).store.get? q = s.get? q := by
  unfold run
  split
  · rfl
  · simp only
    split
    · rfl
    · split
      · rfl
      · exact get?_carryOut_of_ne hfile hbackup hvalidator m s _ _

end Frame

end Repair

/-! ## Runs -/

namespace Backup

open Store (Delivery Medium)

/-- Something that happens to a store. Each write has its own delivery, so that it may break off. -/
inductive Step where
  | write (path content : Text) (delivery : Text → Delivery)
  /-- Writes a file and makes the directories on the way to it. -/
  | place (path content : Text)
  /-- Deletes what is at a path and below it. -/
  | delete (path : Text)
  | create (path : Text) (delivery : Text → Delivery)
  | restore (path : Text) (delivery : Text → Delivery)
  | discard (path : Text)
  | repair (options : Repair.Options) (validator : Option Validator) (medium : Medium)
      (path : Text) (findings : List Finding)

def Step.run (s : Store) : Step → Store
  | write path content delivery => (s.write path content delivery).store
  | place path content => s.place path content
  | delete path => s.delete path
  | create path delivery => (Backup.create s path delivery).store
  | restore path delivery => (Backup.restore s path delivery).store
  | discard path => (Backup.discard s path).store
  | repair o v m path findings => (Repair.run o v m s path findings).store

def runAll (s : Store) : List Step → Store
  | [] => s
  | step :: steps => runAll (step.run s) steps

/-- The step is about the entry at `q`: it is the one, or one of those, that the step writes, makes
or takes away. A validator may be about any entry that it changes in some store. -/
def Step.Aims (q : Route) : Step → Prop
  | write path _ _ => q = Path.route path
  | place path _ => q = Path.route path
  | delete path => Path.route path <+: q
  | create path _ => q = Path.route (Path.backup path)
  | restore path _ => q = Path.route path
  | discard path => q = Path.route (Path.backup path)
  | repair o v _ path _ =>
    q = Path.route path ∨ o.backup = true ∧ q = Path.route (Path.backup path) ∨
      ∃ w ∈ v, ∃ s, (w.judge s path).store.get? q ≠ s.get? q

/-- No step writes, makes or takes away the entry at `q`: a step that is about it fails or finds
nothing to do, and leaves it as it was. -/
def Spared (q : Route) (s : Store) : List Step → Prop
  | [] => True
  | step :: steps =>
    (step.Aims q → (step.run s).get? q = s.get? q) ∧ Spared q (step.run s) steps

theorem Step.get?_run {step : Step} {q : Route} {s : Store} {e : Store.Entry}
    (he : s.get? q = some e) (h : ¬ step.Aims q) : (step.run s).get? q = some e := by
  cases step with
  | write path content delivery => exact (s.get?_write_of_ne h content delivery).trans he
  | place path content => exact Store.get?_place_of_ne he h content
  | delete path => exact (s.get?_delete_of_not_prefix h).trans he
  | create path delivery => exact (get?_create_of_ne s h delivery).trans he
  | restore path delivery => exact (get?_restore_of_ne s h delivery).trans he
  | discard path => exact (get?_discard_of_ne s h).trans he
  | repair o v m path findings =>
    simp only [Aims, not_or, not_and, not_exists, ne_eq, Decidable.not_not] at h
    obtain ⟨hfile, hbackup, hvalidator⟩ := h
    exact (Repair.get?_run_of_ne hfile hbackup hvalidator m s findings).trans he

theorem get?_runAll {q : Route} {s : Store} {e : Store.Entry} {steps : List Step}
    (he : s.get? q = some e) (h : Spared q s steps) : (runAll s steps).get? q = some e := by
  induction steps generalizing s with
  | nil => exact he
  | cons step steps ih =>
    obtain ⟨hstep, hrest⟩ := h
    refine ih ?_ hrest
    by_cases haims : step.Aims q
    · exact (hstep haims).trans he
    · exact step.get?_run he haims

/-! ## The round trip -/

/-- A backup that was made holds what the file holds, at the route that its path leads to. -/
theorem exists_entry_of_create {s : Store} {path : Text} {delivery : Text → Delivery}
    (h : (create s path delivery).error = none) :
    ∃ content written, (create s path delivery).store.read path = .ok content ∧
      (create s path delivery).store.get? (Path.route (Path.backup path)) =
        some (.file content written) ∧
      Path.route (Path.backup path) ≠ Path.route path := by
  rcases s.copy_cases path (Path.backup path) delivery with
    ⟨-, he⟩ | ⟨-, r, content, -, hf, -, -⟩
  · exact absurd (copied_of_create h) he
  obtain ⟨hr, written, hw⟩ := Store.file_eq_ok_iff.1 hf
  obtain ⟨hchanged, hmade⟩ := Repair.create_spec hr hw delivery
  obtain ⟨b, copied, ⟨hne, hb⟩, hbw⟩ := hmade h
  rw [← Store.resolve_eq_route hb, ← Store.resolve_eq_route hr]
  refine ⟨content, copied, ?_, hbw, hne⟩
  exact Store.read_eq_ok_iff.2
    ⟨r, written, hchanged.resolve hr, (hchanged.entry r fun h' => h'.1 rfl).trans hw⟩

/-- Restoring from an entry that is there. It succeeds when the path leads to a place for a file,
the path of the backup still leads to the backup, and the bytes arrive. -/
theorem restore_spec {s : Store} {path content : Text} {written : Int64}
    (hw : s.get? (Path.route (Path.backup path)) = some (.file content written))
    (hne : Path.route (Path.backup path) ≠ Path.route path) (delivery : Text → Delivery) :
    ((restore s path delivery).error = none ↔ (∃ r, s.target path = .ok r) ∧
        (∃ b, s.resolve (Path.backup path) = .ok b) ∧ delivery content = .faithful) ∧
      ((restore s path delivery).error = none →
        (restore s path delivery).store.read path = .ok content) := by
  simp only [restore, Option.map_eq_none_iff]
  rcases s.copy_cases (Path.backup path) path delivery with
    ⟨-, he⟩ | ⟨r, b, copied, ht, hf, -, hc⟩
  · refine ⟨⟨fun h => absurd h he, ?_⟩, fun h => absurd h he⟩
    rintro ⟨⟨r, ht⟩, ⟨b, hb⟩, hd⟩
    have hfile : s.file (Path.backup path) = .ok (b, content) :=
      Store.file_eq_ok_iff.2 ⟨hb, written, Store.resolve_eq_route hb ▸ hw⟩
    have hrb : r ≠ b := by
      rw [Store.resolve_eq_route (Store.target_eq_ok_iff.1 ht).1, Store.resolve_eq_route hb]
      exact hne.symm
    unfold Store.copy
    simp only [ht, hfile, if_neg hrb, hd]
    rfl
  · obtain ⟨hb, written', hw'⟩ := Store.file_eq_ok_iff.1 hf
    obtain ⟨hr, hdir⟩ := Store.target_eq_ok_iff.1 ht
    rw [Store.resolve_eq_route hb, hw] at hw'
    cases hw'
    rw [hc, Store.deliver_error_eq_none_iff]
    refine ⟨⟨fun h => ⟨⟨r, ht⟩, ⟨b, hb⟩, h⟩, fun h => h.2.2⟩, fun h => ?_⟩
    have hchanged := Store.changedOnlyAt_deliver hdir content (delivery content)
    exact Store.read_eq_ok_iff.2 ⟨r, s.now, hchanged.resolve hr,
      Store.get?_deliver (Store.ne_nil_of_not_directory hdir)
        (Store.deliver_error_eq_none_iff.2 h)⟩

/-- **A backup brings the file back after any run that spares it.** -/
theorem restore_runAll {s : Store} {path : Text} {delivery : Text → Delivery}
    (hmade : (create s path delivery).error = none) {steps : List Step}
    (hspared : Spared (Path.route (Path.backup path)) (create s path delivery).store steps) :
    ∃ content, (create s path delivery).store.read path = .ok content ∧
      ∀ delivery', let before := runAll (create s path delivery).store steps
        let after := restore before path delivery'
        (after.error = none ↔ (∃ r, before.target path = .ok r) ∧
          (∃ b, before.resolve (Path.backup path) = .ok b) ∧ delivery' content = .faithful) ∧
        (after.error = none → after.store.read path = .ok content) ∧
        ∀ q, q ≠ Path.route path → after.store.get? q = before.get? q := by
  obtain ⟨content, written, hread, hentry, hne⟩ := exists_entry_of_create hmade
  refine ⟨content, hread, fun delivery' => ?_⟩
  obtain ⟨hsucceeds, hback⟩ := restore_spec (get?_runAll hentry hspared) hne delivery'
  exact ⟨hsucceeds, hback, fun q hq => get?_restore_of_ne _ hq delivery'⟩

/-- The backup is itself backed up, the file is deleted, written again through another path and
repaired without a backup, and a repair with a backup finds nothing to do. -/
theorem restore_runAll_of_repair :
    let sound : Text → Delivery := fun _ => .faithful
    let s : Store := ⟨[(["d"], .directory), (["d", "f"], .file "let x" 0)], 0⟩
    let made := create s "d/f" sound
    let finding := Finding.onLine "LET_BINDING" .variableDeclaration .error "d/f" 0 [] []
      [⟨"d/f", 0, 3, "var", []⟩]
    let steps : List Step := [.create "d/f.backup" sound, .delete "d/f", .place "d/e/../f" "junk",
      .repair ⟨true, false, false, false⟩ (some .structural) .sound "d/f" [finding],
      .repair ⟨true, true, false, false⟩ none .sound "d/f" []]
    let before := runAll made.store steps
    let after := restore before "d/f" sound
    made.error = none ∧ Spared (Path.route (Path.backup "d/f")) made.store steps ∧
      before.get? ["d", "f"] = some (.file "vark" 0) ∧ after.error = none ∧
      after.store.get? ["d", "f"] = some (.file "let x" 0) ∧
      ∃ old, made.store.read "d/f" = .ok old ∧ after.store.read "d/f" = .ok old := by
  intro sound s made finding steps before after
  have hmade : made.error = none := by decide +kernel
  have hspared : Spared (Path.route (Path.backup "d/f")) made.store steps := by
    simp only [steps, Spared, Step.Aims, and_true]
    refine ⟨?_, ?_, ?_, ?_, fun _ => ?_⟩
    · exact fun h => absurd h (by decide +kernel)
    · exact fun h => absurd h (by decide +kernel)
    · exact fun h => absurd h (by decide +kernel)
    · rintro (h | ⟨⟨⟩, -⟩ | ⟨w, ⟨⟩, t, h⟩)
      · exact absurd h (by decide +kernel)
      · exact absurd rfl h
    · decide +kernel
  obtain ⟨old, hold, hall⟩ := restore_runAll hmade hspared
  have hafter : after.error = none := by decide +kernel
  exact ⟨hmade, hspared, by decide +kernel, hafter, by decide +kernel, old, hold,
    (hall sound).2.1 hafter⟩

end Backup

end MojoLint
