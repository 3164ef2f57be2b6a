import Mathlib.Algebra.Group.Int.Defs
import MojoLint.Proofs.Backup.Cleanup
import MojoLint.Proofs.Store.Path

/-!
# How long backups are kept

`Honours` says what a cleanup of a number of days should do: take away the backups whose age has
reached that many days, list each of them once, count the other ones, and change nothing else. Ages
and retention are integers there. The cleanup itself compares 64-bit counts of nanoseconds, and more
than 106751 days do not fit into one.

A cleanup looks at each entry in the store that its earlier removals have left. Only files go, so
the directories on the way to an entry stay, and what becomes of the entry is what would have become
of it at first (`fate?_stable`). A sweep is then told by the fates in the first store
(`foldl_visit`), and a cleanup honours its retention exactly when every fate is the one that is
due (`honours_iff_fatesDue`).
-/

namespace MojoLint.Cleanup

open Store (ChangedOnlyAt pathLimit)

/-! ## Ages -/

/-- How many nanoseconds ago something was written. -/
def age (s : Store) (written : Int64) : Int := s.now.toInt - written.toInt

/-- The nanoseconds of a number of days, none of them for a negative number. -/
def retention (days : Int) : Int := max days 0 * 24 * 3600 * 1000000000

/-- The age of every file below a directory fits into 64 bits. -/
def AgesFit (s : Store) (r : Route) : Prop :=
  ∀ names content written, (names, .file content written) ∈ s.entriesBelow r →
    -2 ^ 63 ≤ age s written ∧ age s written < 2 ^ 63

theorem retention_mono {days days' : Int} (h : days ≤ days') : retention days ≤ retention days' := by
  unfold retention
  omega

theorem toInt_window {days : Int} (h : days ≤ 106751) : (window days).toInt = retention days := by
  unfold window retention
  apply Int64.toInt_ofInt_of_le <;> omega

theorem le_retention {days : Int} (h : 106751 < days) : 2 ^ 63 ≤ retention days := by
  unfold retention
  omega

theorem isExpired_iff {s : Store} {written : Int64} (hlow : -2 ^ 63 ≤ age s written)
    (hhigh : age s written < 2 ^ 63) (v : Int64) :
    isExpired s.now written v = true ↔ v.toInt ≤ age s written := by
  rw [isExpired, decide_eq_true_eq, Int64.le_iff_toInt_le, Int64.toInt_sub]
  change v.toInt ≤ (age s written).bmod (2 ^ 64) ↔ _
  rw [Int.bmod_eq_of_le (by simpa using hlow) (by simpa using hhigh)]

/-- The comparison of the two counts is the one of the integers when the count of the retention does
not wrap. When it does, no file is old enough, and one must not pass for it. -/
theorem isExpired_window_iff {s : Store} {written : Int64} (hlow : -2 ^ 63 ≤ age s written)
    (hhigh : age s written < 2 ^ 63) (days : Int) :
    (isExpired s.now written (window days) = true ↔ retention days ≤ age s written) ↔
      days ≤ 106751 ∨ age s written < (window days).toInt := by
  rw [isExpired_iff hlow hhigh]
  by_cases h : days ≤ 106751
  · simp [toInt_window h, h]
  · have hyoung : ¬ retention days ≤ age s written := by
      have := le_retention (Int.not_le.1 h)
      omega
    simp only [hyoung, iff_false, h, false_or, Int.not_le]

/-! ## What should become of an entry -/

/-- The entry is a backup whose age has reached the retention. -/
def expires (s : Store) (days : Int) : Route × Store.Entry → Bool
  | (names, .file _ written) => isBackup names && decide (retention days ≤ age s written)
  | (_, .directory) => false

/-- The entry is a backup that is younger than the retention. -/
def remains (s : Store) (days : Int) : Route × Store.Entry → Bool
  | (names, .file _ written) => isBackup names && decide (age s written < retention days)
  | (_, .directory) => false

theorem remains_of_fate?_kept {s : Store} {root : Text} {v : Int64} {days : Int}
    {e : Route × Store.Entry} (h : fate? s root v e = some .kept)
    (hexpires : ¬ expires s days e = true) : remains s days e = true := by
  obtain ⟨names, entry⟩ := e
  cases entry with
  | directory => cases h
  | file content written =>
    simp only [fate?] at h
    split at h
    · rename_i hbackup
      simp only [expires, remains, hbackup, Bool.true_and, decide_eq_true_eq, Int.not_le] at hexpires ⊢
      exact hexpires
    · cases h

theorem of_countP_eq {α : Type} {xs : List α} {p q : α → Bool}
    (h : ∀ x ∈ xs, p x = true → q x = true) (hcount : xs.countP p = xs.countP q) :
    ∀ x ∈ xs, q x = true → p x = true := by
  induction xs with
  | nil => nofun
  | cons a xs ih =>
    obtain ⟨ha, hrest⟩ := List.forall_mem_cons.1 h
    have hle := List.countP_mono_left hrest
    rw [List.countP_cons, List.countP_cons] at hcount
    rw [List.forall_mem_cons]
    cases hp : p a <;> cases hq : q a <;> simp [hp, hq] at ha hcount ⊢
    · exact ih hrest hcount
    · omega
    · exact ih hrest hcount

/-- A cleanup below the directory at `r` takes away the backups that have expired, each listed once,
counts the other ones, and changes nothing else. -/
structure Honours (s : Store) (root : Text) (r : Route) (days : Int) : Prop where
  removes : ∀ e ∈ s.entriesBelow r, expires s days e = true →
    (run s root days).1.get? (r ++ e.1) = none
  leaves : ∀ q, (∀ e ∈ s.entriesBelow r, expires s days e = true → r ++ e.1 ≠ q) →
    (run s root days).1.get? q = s.get? q
  lists : ∀ path, path ∈ (run s root days).2.removed ↔
    ∃ e ∈ s.entriesBelow r, expires s days e = true ∧ Path.below root e.1 = path
  once : (run s root days).2.removed.Nodup
  counts : (run s root days).2.kept = (s.entriesBelow r).countP (remains s days)

/-! ## What becomes of an entry -/

section Tree

variable {s : Store} (hs : s.IsTree) {root : Text} {r : Route} (hroot : Byte.nul ∉ root)
  (hr : s.resolve root = .ok r)

include hs

theorem eq_of_names_eq {e e' : Route × Store.Entry} (he : e ∈ s.entriesBelow r)
    (he' : e' ∈ s.entriesBelow r) (h : e.1 = e'.1) : e = e' := by
  have hbelow := Store.nodup_entriesBelow hs.distinct r
  exact List.inj_on_of_nodup_map hbelow he he' h

include hroot hr

/-- A backup whose path is too long cannot be reached. Any other one is judged by its age. -/
theorem fate?_backup {s' : Store} {rs : Route → Prop} (h : ChangedOnlyAt rs s s')
    (hnow : s'.now = s.now) {names : Route} {content : Text} {written : Int64}
    (he : (names, .file content written) ∈ s.entriesBelow r) (hbackup : isBackup names = true)
    (v : Int64) :
    fate? s' root v (names, .file content written) =
      some (if pathLimit < (Path.below root names).length then .unreachable .tooLong
        else if isExpired s.now written v then .removed else .kept) := by
  obtain ⟨hne, hmem⟩ := Store.mem_entriesBelow_iff.1 he
  simp only [fate?]
  rw [if_pos hbackup, h.resolve_below hs hroot hr hne hmem, hnow]
  by_cases hlong : pathLimit < (Path.below root names).length
  · rw [if_pos hlong, if_pos hlong]
  · rw [if_neg hlong, if_neg hlong]

/-- What becomes of an entry does not depend on the removals before. -/
theorem fate?_stable {s' : Store} {rs : Route → Prop} (h : ChangedOnlyAt rs s s')
    (hnow : s'.now = s.now) {e : Route × Store.Entry} (he : e ∈ s.entriesBelow r) (v : Int64) :
    fate? s' root v e = fate? s root v e := by
  obtain ⟨names, entry⟩ := e
  cases entry with
  | directory => rfl
  | file content written =>
    by_cases hbackup : isBackup names = true
    · rw [fate?_backup hs hroot hr h hnow he hbackup,
        fate?_backup hs hroot hr (.refl rs s) rfl he hbackup]
    · simp only [fate?, hbackup, Bool.false_eq_true, if_false]

/-- **A sweep is told by the fates in the store that it starts from.** -/
theorem foldl_visit {entries : List (Route × Store.Entry)}
    (hentries : ∀ e ∈ entries, e ∈ s.entriesBelow r) (v : Int64) {s' : Store}
    (h : ChangedOnlyAt (fun _ => True) s s') (hnow : s'.now = s.now) (c : Cleanup) :
    ∃ failures, entries.foldl (visit root r v) (s', c) =
      (((entries.filter (fate? s root v · = some .removed)).map (r ++ ·.1)).foldl Store.erase s',
        ⟨c.removed ++ (entries.filter (fate? s root v · = some .removed)).map (Path.below root ·.1),
          c.kept + entries.countP (fate? s root v · = some .kept), failures⟩) := by
  induction entries generalizing s' c with
  | nil => exact ⟨c.failures, by simp⟩
  | cons e entries ih =>
    obtain ⟨he, hrest⟩ := List.forall_mem_cons.1 hentries
    have hfate := fate?_stable hs hroot hr h hnow he v
    rw [List.foldl_cons, visit]
    simp only [hfate]
    split
    · rename_i hnone
      simpa [hnone] using ih hrest h hnow c
    · rename_i hremoved
      -- the entry is a file, so the directories stay when it goes
      have herased : ChangedOnlyAt (fun _ => True) s (s'.erase (r ++ e.1)) := by
        refine ⟨fun q hq => absurd trivial hq, fun q hq => ?_⟩
        obtain ⟨hne, hmem⟩ := Store.mem_entriesBelow_iff.1 he
        obtain ⟨content, written, hfile, -⟩ := of_fate?_removed hremoved
        rw [hfile, hs.mem_iff_get? (by simp [hne])] at hmem
        have hother : q ≠ r ++ e.1 := by
          rintro rfl
          rw [hmem] at hq
          cases hq
        rw [Store.get?_erase_of_ne s' hother]
        exact h.directory q hq
      obtain ⟨failures, hfold⟩ := ih hrest herased hnow
        { c with removed := c.removed ++ [Path.below root e.1] }
      exact ⟨failures, by simp [hfold, hremoved]⟩
    · rename_i hkept
      obtain ⟨failures, hfold⟩ := ih hrest h hnow { c with kept := c.kept + 1 }
      exact ⟨failures, by simp [hfold, hkept, Nat.add_assoc, Nat.add_comm 1]⟩
    · rename_i fault hunreachable
      obtain ⟨failures, hfold⟩ := ih hrest h hnow
        { c with failures := c.failures ++ [failure (Path.below root e.1) fault] }
      exact ⟨failures, by simp [hfold, hunreachable]⟩

/-! ## What a cleanup does -/

variable (hdir : s.get? r = some .directory) (days : Int)

include hdir

/-- A cleanup by the fates of what is below its root. -/
theorem run_spec :
    (∀ q, (run s root days).1.get? q =
      if ∃ e ∈ s.entriesBelow r, fate? s root (window days) e = some .removed ∧ r ++ e.1 = q
      then none else s.get? q) ∧
    (∀ path, path ∈ (run s root days).2.removed ↔ ∃ e ∈ s.entriesBelow r,
      fate? s root (window days) e = some .removed ∧ Path.below root e.1 = path) ∧
    (run s root days).2.removed.Nodup ∧
    (run s root days).2.kept =
      (s.entriesBelow r).countP (fate? s root (window days) · = some .kept) := by
  have hwalk := Store.walk_perm_entriesBelow hs r
  have hstatus : s.status root = .ok .directory := by simp [Store.status, hr, hdir]
  obtain ⟨failures, hsweep⟩ := foldl_visit hs hroot hr (fun e he => hwalk.mem_iff.1 he)
    (window days) (.refl _ s) rfl ⟨[], 0, []⟩
  have hmem : ∀ e, e ∈ (s.walk (fun _ => true) r).filter
      (fate? s root (window days) · = some .removed) ↔
        e ∈ s.entriesBelow r ∧ fate? s root (window days) e = some .removed := by
    intro e
    rw [List.mem_filter, hwalk.mem_iff, decide_eq_true_eq]
  unfold run sweep
  simp only [hstatus, hr, hsweep]
  refine ⟨fun q => ?_, fun path => ?_, ?_, ?_⟩
  · rw [Store.get?_foldl_erase]
    · simp only [List.mem_map, hmem, and_assoc]
    · rintro h
      obtain ⟨e, he, hnil⟩ := List.mem_map.1 h
      obtain ⟨hne, -⟩ := Store.mem_entriesBelow_iff.1 ((hmem e).1 he).1
      simp [hne] at hnil
  · simp only [List.mem_mergeSort, List.nil_append, List.mem_map, hmem, and_assoc]
  · refine (List.mergeSort_perm _ _).nodup_iff.2 ?_
    rw [List.nil_append]
    apply List.Nodup.map_on
    · intro e he e' he' hpath
      obtain ⟨hbelow, -⟩ := (hmem e).1 he
      obtain ⟨hbelow', -⟩ := (hmem e').1 he'
      obtain ⟨hne, hentry⟩ := Store.mem_entriesBelow_iff.1 hbelow
      obtain ⟨hne', hentry'⟩ := Store.mem_entriesBelow_iff.1 hbelow'
      apply eq_of_names_eq hs hbelow hbelow'
      refine Path.below_inj hne hne' ?_ ?_ hpath
      · exact fun name hname => (hs.isFileName_of_append hentry name hname).no_slash
      · exact fun name hname => (hs.isFileName_of_append hentry' name hname).no_slash
    · exact ((Store.nodup_walk hs.distinct).of_map).filter _
  · rw [Nat.zero_add]
    exact hwalk.countP_eq _

/-- What becomes of every entry is what should. -/
def FatesDue (s : Store) (root : Text) (r : Route) (days : Int) : Prop :=
  ∀ e ∈ s.entriesBelow r,
    (fate? s root (window days) e = some .removed ↔ expires s days e = true) ∧
      (fate? s root (window days) e = some .kept ↔ remains s days e = true)

theorem Honours.removed_iff (h : Honours s root r days) {e : Route × Store.Entry}
    (he : e ∈ s.entriesBelow r) :
    fate? s root (window days) e = some .removed ↔ expires s days e = true := by
  obtain ⟨hstore, -⟩ := run_spec hs hroot hr hdir days
  obtain ⟨hne, hentry⟩ := Store.mem_entriesBelow_iff.1 he
  rw [hs.mem_iff_get? (by simp [hne])] at hentry
  have hroute : ∀ e' ∈ s.entriesBelow r, r ++ e'.1 = r ++ e.1 → e' = e := fun e' he' h =>
    eq_of_names_eq hs he' he (List.append_cancel_left h)
  constructor
  · intro hfate
    by_contra hexpires
    have hstays := h.leaves (r ++ e.1) fun e' he' hexpires' h => by
      rw [hroute e' he' h] at hexpires'
      exact hexpires hexpires'
    rw [hstore, if_pos ⟨e, he, hfate, rfl⟩, hentry] at hstays
    cases hstays
  · intro hexpires
    have hgone := h.removes e he hexpires
    rw [hstore] at hgone
    split at hgone
    · rename_i htaken
      obtain ⟨e', he', hfate, h⟩ := htaken
      rwa [hroute e' he' h] at hfate
    · rw [hentry] at hgone
      cases hgone

/-- **A cleanup honours its retention exactly when every entry meets the fate that is due.** -/
theorem honours_iff_fatesDue : Honours s root r days ↔ FatesDue s root r days := by
  obtain ⟨hstore, hlists, honce, hkept⟩ := run_spec hs hroot hr hdir days
  constructor
  · intro h
    have hremoved := fun e he => h.removed_iff hs hroot hr hdir days (e := e) he
    have hremains : ∀ e ∈ s.entriesBelow r,
        fate? s root (window days) e = some .kept → remains s days e = true := by
      rintro e he hfate
      apply remains_of_fate?_kept hfate
      rw [← hremoved e he, hfate]
      nofun
    refine fun e he => ⟨hremoved e he, hremains e he, ?_⟩
    -- as many entries are kept as should be, so none that should be is left out
    have hcount := hkept.symm.trans h.counts
    intro hdue
    have hback := of_countP_eq (fun e he hfate => hremains e he (of_decide_eq_true hfate)) hcount
    exact of_decide_eq_true (hback e he hdue)
  · intro h
    have htaken : ∀ P : Route × Store.Entry → Prop,
        (∃ e ∈ s.entriesBelow r, fate? s root (window days) e = some .removed ∧ P e) ↔
          ∃ e ∈ s.entriesBelow r, expires s days e = true ∧ P e := fun P =>
      exists_congr fun e => and_congr_right fun he => and_congr_left fun _ => (h e he).1
    refine ⟨fun e he hexpires => ?_, fun q hq => ?_, fun path => ?_, honce, ?_⟩
    · rw [hstore, if_pos ⟨e, he, (h e he).1.2 hexpires, rfl⟩]
    · rw [hstore, if_neg]
      rw [htaken]
      rintro ⟨e, he, hexpires, hroute⟩
      exact hq e he hexpires hroute
    · rw [hlists, htaken]
    · rw [hkept]
      apply List.countP_congr
      intro e he
      rw [decide_eq_true_eq]
      exact (h e he).2

end Tree

/-! ## When the retention is honoured -/

section Ages

variable {s : Store} (hs : s.IsTree) {root : Text} {r : Route} (hroot : Byte.nul ∉ root)
  (hr : s.resolve root = .ok r) (hages : AgesFit s r)

include hs hroot hr hages

theorem fate?_removed_iff {names : Route} {content : Text} {written : Int64}
    (he : (names, .file content written) ∈ s.entriesBelow r) (v : Int64) :
    fate? s root v (names, .file content written) = some .removed ↔
      isBackup names = true ∧ (Path.below root names).length ≤ pathLimit ∧
        v.toInt ≤ age s written := by
  by_cases hbackup : isBackup names = true
  · obtain ⟨hlow, hhigh⟩ := hages names content written he
    rw [fate?_backup hs hroot hr (.refl (fun _ => True) s) rfl he hbackup,
      ← isExpired_iff hlow hhigh, ← Nat.not_lt]
    split
    · simp_all
    · split <;> simp_all
  · simp [fate?, hbackup]

/-- The fate of a backup is the one that is due when its path can be followed and the count of the
retention does not wrap, or wraps to one that its age has not reached. -/
theorem fatesDue_iff (days : Int) :
    FatesDue s root r days ↔
      ∀ names content written, (names, .file content written) ∈ s.entriesBelow r →
        isBackup names = true → (Path.below root names).length ≤ pathLimit ∧
          (days ≤ 106751 ∨ age s written < (window days).toInt) := by
  constructor
  · intro h names content written he hbackup
    obtain ⟨hremoved, hkept⟩ := h _ he
    obtain ⟨hlow, hhigh⟩ := hages names content written he
    rw [← isExpired_window_iff hlow hhigh]
    rw [fate?_backup hs hroot hr (.refl (fun _ => True) s) rfl he hbackup] at hremoved hkept
    simp only [expires, remains, hbackup, Bool.true_and, decide_eq_true_eq] at hremoved hkept
    by_cases hlong : pathLimit < (Path.below root names).length
    · -- out of reach it is neither removed nor kept, and its age asks for one of the two
      simp only [hlong, if_true, Option.some.injEq, reduceCtorEq, false_iff] at hremoved hkept
      omega
    · refine ⟨Nat.not_lt.1 hlong, ?_⟩
      simp only [hlong, if_false, Option.some.injEq] at hremoved
      rw [← hremoved]
      split <;> simp_all
  · rintro h ⟨names, entry⟩ he
    cases entry with
    | directory => simp [fate?, expires, remains]
    | file content written =>
      by_cases hbackup : isBackup names = true
      · obtain ⟨hshort, hwraps⟩ := h names content written he hbackup
        obtain ⟨hlow, hhigh⟩ := hages names content written he
        rw [← isExpired_window_iff hlow hhigh] at hwraps
        rw [fate?_backup hs hroot hr (.refl (fun _ => True) s) rfl he hbackup,
          if_neg (Nat.not_lt.2 hshort)]
        simp only [expires, remains, hbackup, Bool.true_and, decide_eq_true_eq, ← hwraps,
          ← Int.not_le]
        split <;> simp_all
      · simp [fate?, expires, remains, hbackup]

/-- **When the retention is honoured.** It is honoured exactly when the path of every backup can be
followed and the retention is at most 106751 days, or else wraps to a window that the age of no
backup has reached. Up to that many days a larger window never removes more. -/
theorem retention_honoured_iff (hdir : s.get? r = some .directory) (days : Int) :
    (Honours s root r days ↔
      ∀ names content written, (names, .file content written) ∈ s.entriesBelow r →
        isBackup names = true → (Path.below root names).length ≤ pathLimit ∧
          (days ≤ 106751 ∨ age s written < (window days).toInt)) ∧
      ∀ days', days ≤ days' → days' ≤ 106751 →
        ∀ path ∈ (run s root days').2.removed, path ∈ (run s root days).2.removed := by
  refine ⟨(honours_iff_fatesDue hs hroot hr hdir days).trans
    (fatesDue_iff hs hroot hr hages days), fun days' hle hfits path hpath => ?_⟩
  obtain ⟨-, hlists, -⟩ := run_spec hs hroot hr hdir days
  obtain ⟨-, hlists', -⟩ := run_spec hs hroot hr hdir days'
  obtain ⟨⟨names, entry⟩, he, hfate, rfl⟩ := (hlists' path).1 hpath
  obtain ⟨content, written, rfl, -⟩ := of_fate?_removed hfate
  refine (hlists _).2 ⟨_, he, ?_, rfl⟩
  rw [fate?_removed_iff hs hroot hr hages he] at hfate ⊢
  rw [toInt_window hfits] at hfate
  rw [toInt_window (Int.le_trans hle hfits)]
  exact ⟨hfate.1, hfate.2.1, Int.le_trans (retention_mono hle) hfate.2.2⟩

end Ages

/-- With a retention of a week, a backup of eight days in a directory of its own goes. One of a day
stays, and so does an old file that is no backup. -/
theorem retention_honoured_of_week :
    let s : Store := ⟨[(["d"], .directory), (["d", "sub"], .directory),
      (["d", "sub", "a.mojo.backup"], .file "x" (-691200000000000)),
      (["d", "b.backup"], .file "y" (-86400000000000)),
      (["d", "c.mojo"], .file "z" (-691200000000000))], 0⟩
    s.IsTree ∧ Byte.nul ∉ ("d" : Text) ∧ s.resolve "d" = .ok ["d"] ∧ AgesFit s ["d"] ∧
      s.get? ["d"] = some .directory ∧ Honours s "d" ["d"] 7 ∧
      (run s "d" 7).2 = ⟨["d/sub/a.mojo.backup"], 1, []⟩ := by
  intro s
  have hs : s.IsTree := by decide +kernel
  have hroot : Byte.nul ∉ ("d" : Text) := by decide
  have hr : s.resolve "d" = .ok ["d"] := by decide +kernel
  have hdir : s.get? ["d"] = some .directory := by decide +kernel
  let below : List (Route × Store.Entry) := [(["sub"], .directory),
    (["sub", "a.mojo.backup"], .file "x" (-691200000000000)),
    (["b.backup"], .file "y" (-86400000000000)), (["c.mojo"], .file "z" (-691200000000000))]
  have hbelow : s.entriesBelow ["d"] = below := by decide +kernel
  have hages : AgesFit s ["d"] := by
    intro names content written he
    rw [hbelow] at he
    simp only [below, List.mem_cons, Prod.mk.injEq, Store.Entry.file.injEq, reduceCtorEq, and_false,
      List.not_mem_nil, false_or, or_false] at he
    rcases he with ⟨-, -, rfl⟩ | ⟨-, -, rfl⟩ | ⟨-, -, rfl⟩ <;> decide
  refine ⟨hs, hroot, hr, hages, hdir, ?_, by decide +kernel⟩
  refine (retention_honoured_iff hs hroot hr hages hdir 7).1.2 fun names content written he _ => ?_
  refine ⟨?_, .inl (by decide)⟩
  rw [hbelow] at he
  simp only [below, List.mem_cons, Prod.mk.injEq, Store.Entry.file.injEq, reduceCtorEq, and_false,
    List.not_mem_nil, false_or, or_false] at he
  rcases he with ⟨rfl, -⟩ | ⟨rfl, -⟩ | ⟨rfl, -⟩ <;> decide +kernel

/-- **More than 106751 days make every backup expire.** One that was written just now goes: the
nanoseconds of 106752 days wrap to a negative count, which the age of any file has reached. -/
theorem young_backup_removed :
    let s : Store := ⟨[(["a.backup"], .file "x" 0)], 0⟩
    age s 0 = 0 ∧ 0 < retention 106752 ∧ (window 106752).toInt < 0 ∧
      (run s "." 106752).1.get? ["a.backup"] = none ∧
      (run s "." 106752).2 = ⟨["./a.backup"], 0, []⟩ ∧ ¬ Honours s "." [] 106752 := by
  intro s
  have hgone : (run s "." 106752).1.get? ["a.backup"] = none := by decide +kernel
  refine ⟨by decide, by decide, by decide, hgone, by decide +kernel, fun h => ?_⟩
  have hstays := h.leaves ["a.backup"] (by decide +kernel)
  rw [hgone] at hstays
  exact absurd hstays (by decide +kernel)

end MojoLint.Cleanup
