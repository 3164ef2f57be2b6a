import MojoLint.Proofs.Store.Path
import MojoLint.Store.Discovery

/-!
# What a search for source files finds

A search walks below its root and skips directories with an excluded name. In a tree it finds the
path of every source file that lies outside such directories and no other path (`discovers_exactly`).
Each is found once, because a path below the root tells the entry it is for, so sorting in byte order
gives a strictly increasing list, which does not depend on the order of the listing.
-/

namespace MojoLint.Discovery

open Checker (Options)

/-- The path is that of a regular file below the directory at `r`, with the extension of a source
file and with no excluded name among the directories between the two. -/
def Finds (o : Options) (s : Store) (root : Text) (r : Route) (path : Text) : Prop :=
  ∃ names content written, s.get? (r ++ names) = some (.file content written) ∧
    path = Path.below root names ∧ Path.extension path ∈ o.extensions ∧
    ∀ name ∈ names.dropLast, name ∉ o.excludedDirs

theorem isSource_iff {o : Options} {path : Text} :
    isSource o path = true ↔ Path.extension path ∈ o.extensions := by
  rw [isSource, List.contains_iff_mem]

theorem enters_iff {o : Options} {name : Text} : enters o name = true ↔ name ∉ o.excludedDirs := by
  rw [enters, Bool.not_eq_true', ← Bool.not_eq_true, List.contains_iff_mem]

theorem path?_eq_some_iff {o : Options} {root path : Text} {e : Route × Store.Entry} :
    path? o root e = some path ↔
      ∃ names content written, e = (names, .file content written) ∧ path = Path.below root names ∧
        Path.extension path ∈ o.extensions := by
  obtain ⟨names, entry⟩ := e
  cases entry with
  | directory => simp [path?]
  | file content written =>
    simp only [path?, Option.ite_none_right_eq_some, isSource_iff, Option.some.injEq]
    constructor
    · rintro ⟨hextension, rfl⟩
      exact ⟨names, content, written, rfl, rfl, hextension⟩
    · rintro ⟨_, _, _, ⟨⟩, rfl, hextension⟩
      exact ⟨hextension, rfl⟩

section Tree

variable {s : Store} (hs : s.IsTree) {r : Route} (o : Options) (root : Text)

include hs

theorem mem_found_iff (hr : s.get? r = some .directory) (path : Text) :
    path ∈ (s.walk (enters o) r).filterMap (path? o root) ↔ Finds o s root r path := by
  simp only [List.mem_filterMap, path?_eq_some_iff]
  constructor
  · rintro ⟨_, hwalk, names, content, written, rfl, hpath, hextension⟩
    obtain ⟨hne, hmem, henters⟩ := hs.mem_walk_iff.1 hwalk
    exact ⟨names, content, written, Store.get?_of_mem hs.distinct (by simp [hne]) hmem, hpath,
      hextension, fun name hname => enters_iff.1 (henters name hname)⟩
  · rintro ⟨names, content, written, hfile, hpath, hextension, hexcluded⟩
    have hne : names ≠ [] := by
      rintro rfl
      rw [List.append_nil, hr] at hfile
      cases hfile
    refine ⟨_, hs.mem_walk_iff.2 ⟨hne, Store.mem_of_get? (by simp [hne]) hfile, ?_⟩,
      names, content, written, rfl, hpath, hextension⟩
    exact fun name hname => enters_iff.2 (hexcluded name hname)

/-- No path is found twice: it tells the names that a walk visits once. -/
theorem nodup_found : ((s.walk (enters o) r).filterMap (path? o root)).Nodup := by
  have hwalk : ((s.walk (enters o) r).map Prod.fst).Nodup := Store.nodup_walk hs.distinct
  rw [List.Nodup, List.pairwise_map] at hwalk
  rw [List.Nodup, List.pairwise_filterMap]
  refine hwalk.imp_of_mem ?_
  rintro e e' he he' hne path hpath path' hpath' rfl
  obtain ⟨names, content, written, rfl, rfl, -⟩ := path?_eq_some_iff.1 hpath
  obtain ⟨names', content', written', rfl, hbelow, -⟩ := path?_eq_some_iff.1 hpath'
  obtain ⟨hnames, hmem, -⟩ := hs.mem_walk_iff.1 he
  obtain ⟨hnames', hmem', -⟩ := hs.mem_walk_iff.1 he'
  apply hne
  refine Path.below_inj hnames hnames' ?_ ?_ hbelow
  · exact fun name hname => (hs.isFileName_of_append hmem name hname).no_slash
  · exact fun name hname => (hs.isFileName_of_append hmem' name hname).no_slash

end Tree

theorem run_of_directory {s : Store} {root : Text} {r : Route} (hroot : s.resolve root = .ok r)
    (hr : s.get? r = some .directory) (o : Options) :
    run o s root = ⟨((s.walk (enters o) r).filterMap (path? o root)).mergeSort, []⟩ := by
  have hstatus : s.status root = .ok .directory := by simp [Store.status, hroot, hr]
  unfold run
  simp only [hstatus, hroot]

/-- **Discovery finds exactly the source files.** Below a directory of a tree, the files found
increase strictly in byte order, they are the source files outside excluded directories, and the
order in which the store lists its entries makes no difference. -/
theorem discovers_exactly {s : Store} (hs : s.IsTree) {root : Text} {r : Route}
    (hroot : s.resolve root = .ok r) (hr : s.get? r = some .directory) (o : Options) :
    (run o s root).files.Pairwise (· < ·) ∧
      (∀ path, path ∈ (run o s root).files ↔ Finds o s root r path) ∧
      (run o s root).warnings = [] ∧
      ∀ s' : Store, s'.entries.Perm s.entries → run o s' root = run o s root := by
  have hrun := run_of_directory hroot hr o
  have hsorted := Text.pairwise_lt_mergeSort (nodup_found hs o root (r := r))
  refine ⟨?_, fun path => ?_, ?_, fun s' hperm => ?_⟩
  · rw [hrun]
    exact hsorted
  · rw [hrun, List.mem_mergeSort]
    exact mem_found_iff hs o root hr path
  · rw [hrun]
  · have hs' := Store.isTree_of_perm hs hperm
    have hroot' : s'.resolve root = .ok r := (Store.resolve_of_perm hs hperm root).trans hroot
    have hr' : s'.get? r = some .directory := (Store.get?_of_perm hs hperm r).trans hr
    rw [hrun, run_of_directory hroot' hr' o]
    congr 1
    -- both lists increase and they hold the same paths
    refine List.Perm.eq_of_pairwise ?_ (Text.pairwise_lt_mergeSort (nodup_found hs' o root)) hsorted
      ?_
    · intro p q _ _ hpq hqp
      exact absurd hqp (List.lt_asymm hpq)
    · have hwalk := Store.walk_perm_of_perm hs hperm (enters o) r
      exact ((List.mergeSort_perm _ _).trans (hwalk.filterMap _)).trans
        (List.mergeSort_perm _ _).symm

/-- A search that starts in a directory with an excluded name, passes over one, and takes a file with
an excluded name. -/
theorem discovers_exactly_around_excluded :
    let s : Store := ⟨[(["build"], .directory), (["build", "lib"], .directory),
      (["build", "lib", "z.mojo"], .file "" 0), (["build", "x.mojo"], .file "" 0),
      (["build", "lib", "build"], .directory), (["build", "lib", "build", "y.mojo"], .file "" 0),
      (["build", "note.md"], .file "" 0)], 0⟩
    let o : Options := { Options.standard with excludedDirs := ["build", "x.mojo"] }
    s.IsTree ∧ s.resolve "build" = .ok ["build"] ∧ s.get? ["build"] = some .directory ∧
      (run o s "build").files = ["build/lib/z.mojo", "build/x.mojo"] ∧
      run o ⟨s.entries.reverse, 0⟩ "build" = run o s "build" ∧
      ¬ Finds o s "build" ["build"] "build/lib/build/y.mojo" := by
  intro s o
  have hs : s.IsTree := by decide +kernel
  have hroot : s.resolve "build" = .ok ["build"] := by decide +kernel
  have hr : s.get? ["build"] = some .directory := by decide +kernel
  have hfiles : (run o s "build").files = ["build/lib/z.mojo", "build/x.mojo"] := by
    rw [run_of_directory hroot hr o, List.mergeSort_of_pairwise (by decide +kernel)]
    decide +kernel
  obtain ⟨-, hfinds, -, horder⟩ := discovers_exactly hs hroot hr o
  refine ⟨hs, hroot, hr, hfiles, horder _ (List.reverse_perm _), ?_⟩
  rw [← hfinds, hfiles]
  decide +kernel

end MojoLint.Discovery
