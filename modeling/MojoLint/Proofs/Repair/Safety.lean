import MojoLint.Proofs.Store.Frame
import MojoLint.Repair.Basic

/-!
# Repairs are safe

A repair may fail at every write: the backup, the new content and the rollback are attempts that a
medium can break off, leaving any bytes behind. `Safe` says what holds all the same, for every
store, medium and read-only validator. It has one field for each way a repair can end, and one for
the entries it never touches.

The invariant behind it is `HasBackup`: from the moment the backup was made until the end, a second
route holds the original. Each step is described once, by the routes it changes and by what its
error says (`create_spec`, `rollback_spec`, `changedOnlyAt_settle`), and `overwrite_safe` puts them
together.
-/

namespace MojoLint

/-- A validator that looks at the store and does not change it. -/
def Validator.ReadOnly (w : Validator) : Prop := ∀ s path, (w.judge s path).store = s

theorem Validator.structural_readOnly : Validator.structural.ReadOnly := fun _ _ => rfl

namespace Backup

open Store (Delivery)

/-- Reading a backup back leaves the store as the copy left it. -/
theorem store_create (s : Store) (path : Text) (delivery : Text → Delivery) :
    (create s path delivery).store = (s.copy path (Path.backup path) delivery).store := by
  unfold create
  simp only
  split <;> rfl

theorem copied_of_create {s : Store} {path : Text} {delivery : Text → Delivery}
    (h : (create s path delivery).error = none) :
    (s.copy path (Path.backup path) delivery).error = none := by
  unfold create at h
  simp only at h
  split at h
  · cases h
  · assumption

end Backup

namespace Repair

open Store (Attempt ChangedOnlyAt Delivery Effect Fault Medium)

/-- What a repair of the file at `path` by `edits` guarantees, when it starts in the store `s` and
ends in `out`. -/
structure Safe (o : Options) (v : Option Validator) (m : Medium) (s : Store) (path : Text)
    (edits : List Edit) (out : Outcome) : Prop where
  /-- Without edits, or with a plan only, nothing happens. -/
  unchanged : out.status = .nothingToFix ∨ out.status = .planned → out.store = s
  /-- An applied repair leaves exactly the edited content, and the validator accepted the store
  with that content; afterwards at most the backup is taken away. -/
  applied : out.status = .applied → ∃ old new, s.read path = .ok old ∧
    Edit.applyAll old edits = ⟨new, none⟩ ∧ out.store.read path = .ok new ∧
    ∀ w ∈ v, ∃ judged : Store, judged.read path = .ok new ∧
      (w.judge judged path).rejection = none ∧
      ∀ q, s.resolve (Path.backup path) ≠ .ok q → out.store.get? q = judged.get? q
  /-- A repair that was rolled back leaves exactly the original. -/
  rolledBack : out.status = .rolledBack → ∃ old, s.read path = .ok old ∧
    out.store.read path = .ok old
  /-- A failed repair with a backup leaves the original in the file or in the backup. -/
  recoverable : out.status = .failed → o.backup = true → ∀ old, s.read path = .ok old →
    out.store.read path = .ok old ∨ out.store.read (Path.backup path) = .ok old
  /-- A failed repair without a backup loses the original only where writing it back broke off. -/
  lostOnly : out.status = .failed → o.backup = false → ∀ old, s.read path = .ok old →
    out.store.read path ≠ .ok old →
      (∃ fault left, m .rollback old = .broken fault left) ∧
      (out.ending = .unwritten (some .notWrittenBack) ∨
        ∃ why, out.ending = .rejected why (some .notWrittenBack))
  /-- No entry but the file and its backup is changed. -/
  frame : ∀ q, s.resolve path ≠ .ok q → s.resolve (Path.backup path) ≠ .ok q →
    out.store.get? q = s.get? q

/-! ## The backup as a second copy -/

section Steps

-- The file at `path` lies at `r` and holds `old` in the store `s₀` that the repair starts from.
variable {s₀ : Store} {path old : Text} {r : Route} {written : Int64}
  (hr : s₀.resolve path = .ok r) (hw : s₀.get? r = some (.file old written))

/-- The route of the backup, when it is not that of the file itself. -/
def BackupPlace (s₀ : Store) (path : Text) (r q : Route) : Prop :=
  q ≠ r ∧ s₀.resolve (Path.backup path) = .ok q

/-- The store `s` holds `content` at the place of the backup. -/
def HasBackup (s₀ : Store) (path : Text) (r : Route) (content : Text) (s : Store) : Prop :=
  ∃ b written, BackupPlace s₀ path r b ∧ s.get? b = some (.file content written)

/-- Nothing that happens to the file itself takes its backup away. -/
theorem HasBackup.of_changedOnlyAt {content : Text} {s s' : Store}
    (h : HasBackup s₀ path r content s) (hs : ChangedOnlyAt (· = r) s s') :
    HasBackup s₀ path r content s' := by
  obtain ⟨b, written, hb, hw⟩ := h
  exact ⟨b, written, hb, (hs.entry b hb.1).trans hw⟩

theorem HasBackup.read {content : Text} {s : Store} {rs : Route → Prop}
    (h : HasBackup s₀ path r content s) (hs : ChangedOnlyAt rs s₀ s) :
    s.read (Path.backup path) = .ok content := by
  obtain ⟨b, written, hb, hw⟩ := h
  exact Store.read_eq_ok_iff.2 ⟨b, written, hs.resolve hb.2, hw⟩

include hr hw in
/-- Making a backup changes at most the place of the backup, and without an error there is a backup
afterwards. -/
theorem create_spec (delivery : Text → Delivery) :
    ChangedOnlyAt (BackupPlace s₀ path r) s₀ (Backup.create s₀ path delivery).store ∧
    ((Backup.create s₀ path delivery).error = none →
      HasBackup s₀ path r old (Backup.create s₀ path delivery).store) := by
  have herror : (Backup.create s₀ path delivery).error = none →
      (s₀.copy path (Path.backup path) delivery).error = none := Backup.copied_of_create
  rw [Backup.store_create]
  rcases s₀.copy_cases path (Path.backup path) delivery with
    ⟨hs, he⟩ | ⟨b, origin, content, ht, hf, hne, hc⟩
  · rw [hs]
    exact ⟨.refl _ s₀, fun h => absurd (herror h) he⟩
  · obtain ⟨hb, hd⟩ := Store.target_eq_ok_iff.1 ht
    rw [Store.file_eq_ok_iff.2 ⟨hr, written, hw⟩] at hf
    cases hf
    rw [hc] at herror ⊢
    refine ⟨(Store.changedOnlyAt_deliver hd old _).mono fun q hq => hq ▸ ⟨hne, hb⟩, fun h => ?_⟩
    exact ⟨b, s₀.now, ⟨hne, hb⟩,
      Store.get?_deliver (Store.ne_nil_of_not_directory hd) (herror h)⟩

/-! ## Rolling back and settling -/

include hr in
/-- A rollback changes at most the file. Without an error the file holds the original again, and
without a backup the only error is that writing it back broke off. -/
theorem rollback_spec {o : Options} {m : Medium} {s : Store} {rs : Route → Prop}
    (hs : ChangedOnlyAt rs s₀ s) {c : Text} {w : Int64} (hc : s.get? r = some (.file c w))
    (hb : o.backup = true → HasBackup s₀ path r old s) :
    ChangedOnlyAt (· = r) s (rollback o m s path old).store ∧
    ((rollback o m s path old).error = none → (rollback o m s path old).store.read path = .ok old) ∧
    (o.backup = false → (rollback o m s path old).error ≠ none →
      (rollback o m s path old).error = some .notWrittenBack ∧
        ∃ fault left, m .rollback old = .broken fault left) := by
  have hd : s.get? r ≠ some .directory := by simp [hc]
  have ht : s.target path = .ok r := Store.target_eq_ok_iff.2 ⟨hs.resolve hr, hd⟩
  have hch := Store.changedOnlyAt_deliver hd old (m .rollback old)
  have hread : (s.deliver r old (m .rollback old)).error = none →
      (s.deliver r old (m .rollback old)).store.read path = .ok old := fun h =>
    Store.read_eq_ok_iff.2 ⟨r, s.now, hch.resolve (hs.resolve hr),
      Store.get?_deliver (Store.ne_nil_of_not_directory hd) h⟩
  unfold rollback
  cases hob : o.backup with
  | true =>
    obtain ⟨b, w', hbp, hbw⟩ := hb hob
    simp only [if_true, Bool.true_eq_false, false_implies, and_true, Option.map_eq_none_iff]
    unfold Backup.restore
    rcases s.copy_cases (Path.backup path) path (m .rollback) with
      ⟨hst, he⟩ | ⟨q, origin, content, hq, hf, -, hcopy⟩
    · simp only [hst, Option.map_eq_none_iff]
      exact ⟨.refl _ s, fun h => absurd h he⟩
    · rw [ht] at hq
      cases hq
      rw [Store.file_eq_ok_iff.2 ⟨hs.resolve hbp.2, w', hbw⟩] at hf
      cases hf
      simp only [hcopy, Option.map_eq_none_iff]
      exact ⟨hch, hread⟩
  | false =>
    simp only [Bool.false_eq_true, if_false, Option.map_eq_none_iff, true_implies]
    rw [Store.write_eq_deliver ht]
    refine ⟨hch, hread, fun h => ?_⟩
    rw [Ne, Option.map_eq_none_iff] at h
    obtain ⟨e, he⟩ := Option.ne_none_iff_exists'.1 h
    rw [he]
    refine ⟨rfl, ?_⟩
    cases hm : m .rollback old with
    | faithful => exact absurd (Store.deliver_error_eq_none_iff.2 hm) h
    | broken fault left => exact ⟨fault, left, rfl⟩

/-- After an applied repair at most the backup is taken away. -/
theorem changedOnlyAt_settle {o : Options} {s : Store} {rs : Route → Prop}
    (hs : ChangedOnlyAt rs s₀ s) (hb : o.backup = true → HasBackup s₀ path r old s)
    (backup : Option Text) :
    ChangedOnlyAt (BackupPlace s₀ path r) s (settle o s path backup).1 := by
  unfold settle
  split
  · rename_i h
    simp only [Bool.and_eq_true] at h
    obtain ⟨b, w, hbp, hbw⟩ := hb h.1.1
    have hrm : Backup.discard s path = ⟨s.erase b, none⟩ := by
      unfold Backup.discard
      rw [Store.remove_of_file (hs.resolve hbp.2) hbw]
      rfl
    simp only [hrm]
    exact (Store.changedOnlyAt_erase (by simp [hbw])).mono fun q hq => hq ▸ hbp
  · exact .refl _ s

/-! ## The repair -/

/-- The routes that a repair of the file at `r` may change. -/
def Place (s₀ : Store) (path : Text) (r q : Route) : Prop := q = r ∨ BackupPlace s₀ path r q

include hr in
theorem frame_of_changedOnlyAt {s : Store} (hs : ChangedOnlyAt (Place s₀ path r) s₀ s) (q : Route)
    (hq : s₀.resolve path ≠ .ok q) (hqb : s₀.resolve (Path.backup path) ≠ .ok q) :
    s.get? q = s₀.get? q := by
  apply hs.entry
  rintro (rfl | h)
  · exact hq hr
  · exact hqb h.2

include hr hw in
theorem eq_of_read {c : Text} (hc : s₀.read path = .ok c) : c = old := by
  rw [Store.read_eq_ok_iff.2 ⟨r, written, hr, hw⟩] at hc
  cases hc
  rfl

include hr hw in
/-- A repair that ends with a rollback is safe, whatever made it necessary. -/
theorem safe_of_rollback {o : Options} {v : Option Validator} {m : Medium} {s : Store}
    (hs : ChangedOnlyAt (Place s₀ path r) s₀ s) {c : Text} {w : Int64}
    (hc : s.get? r = some (.file c w)) (hb : o.backup = true → HasBackup s₀ path r old s)
    (edits : List Edit) {out : Outcome} (hout : out.store = (rollback o m s path old).store)
    (hend : out.ending = .unwritten (rollback o m s path old).error ∨
      ∃ why, out.ending = .rejected why (rollback o m s path old).error) :
    Safe o v m s₀ path edits out := by
  obtain ⟨hrb, hback, hlost⟩ := rollback_spec (m := m) hr hs hc hb
  have hs' : ChangedOnlyAt (Place s₀ path r) s₀ (rollback o m s path old).store :=
    hs.trans (hrb.mono fun _ => .inl)
  have hstatus : out.status = if (rollback o m s path old).error = none then .rolledBack
      else .failed := by
    unfold Outcome.status
    cases he : (rollback o m s path old).error <;> rw [he] at hend <;>
      rcases hend with h | ⟨why, h⟩ <;> rw [h] <;> rfl
  rw [← hout] at hrb hback hs'
  refine ⟨?_, ?_, ?_, ?_, ?_, frame_of_changedOnlyAt hr hs'⟩
  · rw [hstatus]
    rintro (h | h) <;> split at h <;> cases h
  · rw [hstatus]
    intro h
    split at h <;> cases h
  · rw [hstatus]
    intro h
    split at h
    · rename_i he
      exact ⟨old, Store.read_eq_ok_iff.2 ⟨r, written, hr, hw⟩, hback he⟩
    · cases h
  · intro _ hob c' hc'
    rw [eq_of_read hr hw hc']
    exact .inr (((hb hob).of_changedOnlyAt hrb).read hs')
  · rw [hstatus]
    intro h hob c' hc' _
    rw [eq_of_read hr hw hc']
    split at h
    · cases h
    · rename_i he
      obtain ⟨he', hm⟩ := hlost hob he
      rw [he'] at hend
      exact ⟨hm, hend⟩

include hr hw in
/-- Overwriting is safe from the moment at which the backup was made, if one was asked for. -/
theorem overwrite_safe {o : Options} {v : Option Validator} {m : Medium} {s : Store}
    (hv : ∀ w ∈ v, w.ReadOnly) (hs : ChangedOnlyAt (BackupPlace s₀ path r) s₀ s)
    (hb : o.backup = true → HasBackup s₀ path r old s) {new : Text} {selection : Edit.Selection}
    (hnew : Edit.applyAll old selection.edits = ⟨new, none⟩) (backup : Option Text) :
    Safe o v m s₀ path selection.edits (overwrite o v m s path old new selection backup) := by
  have hwr : s.get? r = some (.file old written) := (hs.entry r fun h => h.1 rfl).trans hw
  have hd : s.get? r ≠ some .directory := by simp [hwr]
  have ht : s.target path = .ok r := Store.target_eq_ok_iff.2 ⟨hs.resolve hr, hd⟩
  -- The write, whether it broke off or not, changed the file at most.
  have hch := Store.changedOnlyAt_deliver hd new (m .repair new)
  have hs₁ : ChangedOnlyAt (Place s₀ path r) s₀ (s.deliver r new (m .repair new)).store :=
    (hs.mono fun _ => .inr).trans (hch.mono fun _ => .inl)
  have hb₁ : o.backup = true → HasBackup s₀ path r old (s.deliver r new (m .repair new)).store :=
    fun h => (hb h).of_changedOnlyAt hch
  obtain ⟨c, w, hc⟩ := Store.exists_file_deliver hwr new (m .repair new)
  have hjudged : (validate v (s.deliver r new (m .repair new)).store path).store =
      (s.deliver r new (m .repair new)).store := by
    cases v with
    | none => rfl
    | some w => exact hv w rfl _ _
  unfold overwrite
  rw [Store.write_eq_deliver ht]
  simp only
  split
  · exact safe_of_rollback hr hw hs₁ hc hb₁ selection.edits rfl (.inl rfl)
  · rename_i hok
    rw [hjudged]
    split
    · rename_i why _
      exact safe_of_rollback hr hw hs₁ hc hb₁ selection.edits rfl (.inr ⟨why, rfl⟩)
    · rename_i hacc
      have hset := changedOnlyAt_settle hs₁ hb₁ backup
      have hs₂ := hs₁.trans (hset.mono fun _ => .inr)
      have hnewr := Store.get?_deliver (Store.ne_nil_of_not_directory hd) hok
      refine ⟨by simp [Outcome.status, Ending.status], fun _ => ?_,
        by simp [Outcome.status, Ending.status], by simp [Outcome.status, Ending.status],
        by simp [Outcome.status, Ending.status], frame_of_changedOnlyAt hr hs₂⟩
      refine ⟨old, new, Store.read_eq_ok_iff.2 ⟨r, written, hr, hw⟩, hnew, ?_, fun w hwv => ?_⟩
      · exact Store.read_eq_ok_iff.2 ⟨r, s.now, hs₂.resolve hr,
          (hset.entry r fun h => h.1 rfl).trans hnewr⟩
      · refine ⟨(s.deliver r new (m .repair new)).store, ?_, ?_, fun q hq => ?_⟩
        · exact Store.read_eq_ok_iff.2 ⟨r, s.now, hs₁.resolve hr, hnewr⟩
        · cases hwv
          exact hacc
        · exact hset.entry q fun h => hq h.2

include hr hw in
theorem carryOut_safe {o : Options} {v : Option Validator} {m : Medium}
    (hv : ∀ w ∈ v, w.ReadOnly) (selection : Edit.Selection) :
    Safe o v m s₀ path selection.edits (carryOut o v m s₀ path old selection) := by
  have hread : s₀.read path = .ok old := Store.read_eq_ok_iff.2 ⟨r, written, hr, hw⟩
  -- Until the file is overwritten, at most the place of the backup changes.
  have hfailed : ∀ {s : Store} {ending : Ending} {backup : Option Text},
      ChangedOnlyAt (BackupPlace s₀ path r) s₀ s → ending.status = .failed →
      Safe o v m s₀ path selection.edits
        ⟨s, ending, selection.edits, selection.skipped, backup, []⟩ := by
    intro s ending backup hs hend
    have hkeep : s.read path = .ok old := Store.read_eq_ok_iff.2
      ⟨r, written, hs.resolve hr, (hs.entry r fun h => h.1 rfl).trans hw⟩
    refine ⟨?_, ?_, ?_, ?_, ?_, frame_of_changedOnlyAt hr (hs.mono fun _ => .inr)⟩
    · simp [Outcome.status, hend]
    · simp [Outcome.status, hend]
    · simp [Outcome.status, hend]
    · intro _ _ c hc
      rw [eq_of_read hr hw hc]
      exact .inl hkeep
    · intro _ _ c hc hne
      rw [eq_of_read hr hw hc] at hne
      exact absurd hkeep hne
  obtain ⟨saved, hsaved⟩ : ∃ saved : Effect Backup.Error,
      saved = if o.backup then Backup.create s₀ path (m .backup) else ⟨s₀, none⟩ := ⟨_, rfl⟩
  have hs : ChangedOnlyAt (BackupPlace s₀ path r) s₀ saved.store := by
    rw [hsaved]
    split
    · exact (create_spec hr hw _).1
    · exact .refl _ s₀
  have hb : saved.error = none → o.backup = true → HasBackup s₀ path r old saved.store := by
    intro he hob
    rw [hsaved, if_pos hob] at he ⊢
    exact (create_spec hr hw _).2 he
  unfold carryOut
  rw [← hsaved]
  simp only
  split
  · exact hfailed hs rfl
  · rename_i he
    split
    · exact hfailed hs rfl
    · rename_i hfit
      apply overwrite_safe hr hw hv hs (hb he)
      rw [← hfit]

end Steps

/-- **A repair is safe** for every store, medium and findings, as long as the validator does not
change files itself. -/
theorem run_safe (o : Options) (v : Option Validator) (hv : ∀ w ∈ v, w.ReadOnly) (m : Medium)
    (s : Store) (path : Text) (findings : List Finding) :
    Safe o v m s path (Edit.select (candidates path findings)).edits
      (run o v m s path findings) := by
  have hsame : ∀ {out : Outcome}, out.store = s →
      out.status ≠ .applied ∧ out.status ≠ .rolledBack →
      Safe o v m s path (Edit.select (candidates path findings)).edits out := by
    rintro out hout ⟨ha, hb⟩
    refine ⟨fun _ => hout, fun h => absurd h ha, fun h => absurd h hb, ?_, ?_, ?_⟩
    · intro _ _ old hold
      rw [hout]
      exact .inl hold
    · intro _ _ old hold hne
      rw [hout] at hne
      exact absurd hold hne
    · intro q _ _
      rw [hout]
  unfold run
  split
  · exact hsame rfl ⟨nofun, nofun⟩
  · rename_i old hold
    obtain ⟨r, written, hr, hw⟩ := Store.read_eq_ok_iff.1 hold
    simp only
    split
    · exact hsame rfl ⟨nofun, nofun⟩
    · split
      · exact hsame rfl ⟨nofun, nofun⟩
      · exact carryOut_safe hr hw hv _

/-- The write of the new content breaks off after two bytes, and the backup brings the original
back. -/
theorem run_safe_of_broken_write :
    let m : Medium := fun a c =>
      if a = .repair then .broken .tooLarge (some (c.take 2)) else .faithful
    let s : Store := ⟨[(["f"], .file "let x" 0)], 0⟩
    let edit : Edit := ⟨"f", 0, 3, "var", []⟩
    let finding := Finding.onLine "LET_BINDING" .variableDeclaration .error "f" 0 [] [] [edit]
    let out := run ⟨true, true, false, true⟩ (some .structural) m s "f" [finding]
    Validator.structural.ReadOnly ∧ out.status = .rolledBack ∧
      ∃ old, s.read "f" = .ok old ∧ out.store.read "f" = .ok old := by
  intro m s edit finding out
  have hstatus : out.status = .rolledBack := by decide +kernel
  refine ⟨Validator.structural_readOnly, hstatus, ?_⟩
  exact (run_safe ⟨true, true, false, true⟩ (some .structural)
    (by rintro w ⟨⟩; exact Validator.structural_readOnly) m s "f" [finding]).rolledBack hstatus

end Repair

end MojoLint
