import MojoLint.Backup.Cleanup
import MojoLint.Proofs.Store.Tree

/-!
# What a cleanup takes away

A cleanup looks at the entries below a directory one by one. Looking at one entry takes at most that
entry away, and only when it is a backup (`get?_visit`), so a whole cleanup takes nothing but backups
away. That such an entry is what the store has at its route needs one fact: no second entry at a
route hides the first (`Store.Distinct`).
-/

namespace MojoLint

namespace Cleanup

/-- The store has a regular file at `q`, below the directory at `r` and with the extension of
backups. -/
def IsBackupBelow (s : Store) (r q : Route) : Prop :=
  ∃ names name content written, q = r ++ names ∧ names.getLast? = some name ∧
    Path.extension name = ".backup" ∧ s.get? q = some (.file content written)

theorem of_fate?_removed {s : Store} {root : Text} {window : Int64} {names : Route}
    {e : Store.Entry} (h : fate? s root window (names, e) = some .removed) :
    ∃ content written, e = .file content written ∧ isBackup names = true := by
  cases e with
  | directory => cases h
  | file content written =>
    simp only [fate?] at h
    split at h
    · rename_i hbackup
      exact ⟨content, written, rfl, hbackup⟩
    · cases h

/-- What becomes of the store when an entry is looked at. -/
theorem visit_store (root : Text) (r : Route) (window : Int64) (done : Store × Cleanup)
    (e : Route × Store.Entry) :
    (visit root r window done e).1 =
      if fate? done.1 root window e = some .removed then done.1.erase (r ++ e.1) else done.1 := by
  unfold visit
  simp only
  split <;> rename_i h <;> simp [h]

/-- Looking at one entry, a cleanup changes nothing or takes a backup away. -/
theorem get?_visit {r : Route} {done : Store × Cleanup} {e : Route × Store.Entry} (hne : e.1 ≠ [])
    (root : Text) (window : Int64) (q : Route) :
    (visit root r window done e).1.get? q = done.1.get? q ∨
      (visit root r window done e).1.get? q = none ∧ q = r ++ e.1 ∧ isBackup e.1 = true ∧
        ∃ content written, e.2 = .file content written := by
  rw [visit_store]
  split
  · rename_i hfate
    by_cases hq : q = r ++ e.1
    · obtain ⟨content, written, hfile, hbackup⟩ := of_fate?_removed hfate
      subst hq
      exact .inr ⟨Store.get?_erase_self _ (by simp [hne]), rfl, hbackup, content, written, hfile⟩
    · exact .inl (Store.get?_erase_of_ne _ hq)
  · exact .inl rfl

/-- Whatever a cleanup takes away while it looks at entries is a backup among them. -/
theorem get?_foldl_visit {r : Route} {entries : List (Route × Store.Entry)}
    (hne : ∀ e ∈ entries, e.1 ≠ []) (root : Text) (window : Int64) (done : Store × Cleanup)
    (q : Route) :
    (entries.foldl (visit root r window) done).1.get? q = done.1.get? q ∨
      (entries.foldl (visit root r window) done).1.get? q = none ∧
        ∃ names content written, (names, .file content written) ∈ entries ∧ q = r ++ names ∧
          isBackup names = true := by
  induction entries generalizing done with
  | nil => exact .inl rfl
  | cons e entries ih =>
    obtain ⟨he, hrest⟩ := List.forall_mem_cons.1 hne
    rw [List.foldl_cons]
    rcases ih hrest (visit root r window done e) with h | ⟨h, names, content, written, hmem, hq⟩
    · rw [h]
      rcases get?_visit he root window q with h | ⟨h, hq, hbackup, content, written, hfile⟩
      · exact .inl h
      · refine .inr ⟨h, e.1, content, written, ?_, hq, hbackup⟩
        rw [← hfile]
        exact List.mem_cons_self
    · exact .inr ⟨h, names, content, written, List.mem_cons_of_mem _ hmem, hq⟩

/-- **A cleanup only removes backups.** What is at a route afterwards was there before, or nothing
is there and a backup below the directory was. -/
theorem run_removes {s : Store} (hs : s.Distinct) (root : Text) (days : Int) (q : Route) :
    (run s root days).1.get? q = s.get? q ∨
      (run s root days).1.get? q = none ∧
        ∃ r, s.resolve root = .ok r ∧ IsBackupBelow s r q := by
  unfold run
  split
  · exact .inl rfl
  · exact .inl rfl
  · exact .inl rfl
  · rename_i r hstatus hr
    have hbelow : ∀ names e, (names, e) ∈ s.walk (fun _ => true) r →
        names ≠ [] ∧ (r ++ names, e) ∈ s.entries := fun names e he =>
      Store.mem_entriesBelow_iff.1 (Store.mem_entriesBelow_of_mem_walk he)
    rcases get?_foldl_visit (r := r) (fun e he => (hbelow e.1 e.2 he).1) root (window days)
      (s, ⟨[], 0, []⟩) q with h | ⟨h, names, content, written, hmem, hq, hbackup⟩
    · exact .inl h
    · obtain ⟨hne, hentry⟩ := hbelow _ _ hmem
      obtain ⟨name, hname, hextension⟩ := Option.any_eq_true _ _ |>.1 hbackup
      subst hq
      exact .inr ⟨h, r, hr, names, name, content, written, rfl, hname, by simpa using hextension,
        Store.get?_of_mem hs (by simp [hne]) hentry⟩

end Cleanup

end MojoLint
