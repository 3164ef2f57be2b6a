import Mathlib.Data.List.Induction
import Mathlib.Data.List.Nodup
import Mathlib.Data.List.Perm.Basic
import MojoLint.Proofs.Text.Basic
import MojoLint.Store.Walk

/-!
# Directory trees

A store lists its entries without saying that they form a tree. `Store.IsTree` says so: every route
has one entry, names are names that a directory can hold, and every entry lies in a directory.

In a tree a walk that goes into every directory visits what is below its root, each entry once
(`walk_perm_entriesBelow`). One that is choosy visits an entry if and only if it may go into every
directory on the way (`mem_walk_iff`). Neither depends on the order in which the store lists things.
-/

namespace MojoLint.Store

/-! ## One entry at a route -/

/-- Every route has at most one entry, as in every file system. -/
def Distinct (s : Store) : Prop := (s.entries.map Prod.fst).Nodup

instance (s : Store) : Decidable s.Distinct :=
  inferInstanceAs (Decidable (s.entries.map Prod.fst).Nodup)

theorem find?_route_of_mem {entries : List (Route × Entry)} {r : Route} {e : Entry}
    (hs : (entries.map Prod.fst).Nodup) (h : (r, e) ∈ entries) :
    entries.find? (fun entry => entry.1 = r) = some (r, e) := by
  induction entries with
  | nil => cases h
  | cons entry rest ih =>
    rw [List.map_cons, List.nodup_cons] at hs
    rcases List.mem_cons.1 h with rfl | h
    · rw [List.find?_cons_of_pos (by simp)]
    · have hne : entry.1 ≠ r := by
        rintro rfl
        exact hs.1 (List.mem_map.2 ⟨_, h, rfl⟩)
      rw [List.find?_cons_of_neg (by simpa using hne)]
      exact ih hs.2 h

theorem get?_of_mem {s : Store} (hs : s.Distinct) {r : Route} {e : Entry} (hr : r ≠ [])
    (h : (r, e) ∈ s.entries) : s.get? r = some e := by
  rw [get?, if_neg hr, find?_route_of_mem hs h]
  rfl

theorem mem_of_get? {s : Store} {r : Route} {e : Entry} (hr : r ≠ []) (h : s.get? r = some e) :
    (r, e) ∈ s.entries := by
  rw [get?, if_neg hr] at h
  obtain ⟨⟨route, found⟩, hfind, rfl⟩ := Option.map_eq_some_iff.1 h
  obtain rfl : route = r := by simpa using List.find?_some hfind
  exact List.mem_of_find?_eq_some hfind

/-- Erasing routes one after the other leaves the other ones alone. -/
theorem get?_foldl_erase (s : Store) {rs : List Route} (hrs : [] ∉ rs) (q : Route) :
    (rs.foldl erase s).get? q = if q ∈ rs then none else s.get? q := by
  induction rs generalizing s with
  | nil => rfl
  | cons r rs ih =>
    rw [List.mem_cons, not_or] at hrs
    rw [List.foldl_cons, ih (s.erase r) hrs.2]
    by_cases hq : q = r
    · rw [hq, get?_erase_self s (Ne.symm hrs.1), ite_self, if_pos List.mem_cons_self]
    · simp only [List.mem_cons, hq, false_or, get?_erase_of_ne s hq]

theorem mem_entriesBelow_iff {s : Store} {r names : Route} {e : Entry} :
    (names, e) ∈ s.entriesBelow r ↔ names ≠ [] ∧ (r ++ names, e) ∈ s.entries := by
  unfold entriesBelow
  rw [List.mem_filterMap]
  constructor
  · rintro ⟨⟨route, e'⟩, hmem, h⟩
    simp only at h
    split at h
    · rename_i name rest hprefix
      cases h
      rw [List.isPrefixOf?_eq_some_iff_append_eq] at hprefix
      subst hprefix
      exact ⟨List.cons_ne_nil _ _, hmem⟩
    · cases h
  · rintro ⟨hne, hmem⟩
    obtain ⟨name, rest, rfl⟩ := List.exists_cons_of_ne_nil hne
    refine ⟨_, hmem, ?_⟩
    simp only [List.isPrefixOf?_eq_some_iff_append_eq.2 rfl]

theorem nodup_entriesBelow {s : Store} (hs : s.Distinct) (r : Route) :
    ((s.entriesBelow r).map Prod.fst).Nodup := by
  unfold entriesBelow Distinct at *
  rw [List.Nodup, List.pairwise_map] at hs ⊢
  rw [List.pairwise_filterMap]
  refine hs.imp ?_
  rintro ⟨route, e⟩ ⟨route', e'⟩ hne ⟨names, f⟩ h ⟨names', f'⟩ h' rfl
  simp only at h h' hne
  split at h
  · rename_i hroute
    cases h
    split at h'
    · rename_i hroute'
      cases h'
      rw [List.isPrefixOf?_eq_some_iff_append_eq] at hroute hroute'
      exact hne (hroute.symm.trans hroute')
    · cases h'
  · cases h

theorem child?_eq_some_iff {e : Route × Entry} {child : Text × Entry} :
    child? e = some child ↔ e = ([child.1], child.2) := by
  obtain ⟨names, f⟩ := e
  obtain ⟨name, f'⟩ := child
  unfold child?
  split
  · simp_all
  · rename_i hne
    simp only [reduceCtorEq, false_iff]
    rintro ⟨⟩
    exact hne name f rfl

theorem mem_children_iff {s : Store} {r : Route} {name : Text} {e : Entry} :
    (name, e) ∈ s.children r ↔ (r ++ [name], e) ∈ s.entries := by
  unfold children
  rw [List.mem_filterMap]
  simp only [child?_eq_some_iff, exists_eq_right, mem_entriesBelow_iff]
  simp

theorem nodup_children {s : Store} (hs : s.Distinct) (r : Route) :
    ((s.children r).map Prod.fst).Nodup := by
  have hbelow := nodup_entriesBelow hs r
  unfold children
  rw [List.Nodup, List.pairwise_map] at hbelow ⊢
  rw [List.pairwise_filterMap]
  refine hbelow.imp ?_
  intro e e' hne child h child' h' heq
  rw [child?_eq_some_iff] at h h'
  rw [h, h', heq] at hne
  exact hne rfl

/-! ## Trees -/

/-- A name that a directory can hold. -/
structure IsFileName (name : Text) : Prop where
  ne_nil : name ≠ []
  ne_dot : name ≠ "."
  ne_dots : name ≠ ".."
  no_slash : Byte.slash ∉ name
  no_nul : Byte.nul ∉ name
  fits : name.length ≤ nameLimit

instance (name : Text) : Decidable (IsFileName name) :=
  decidable_of_iff (name ≠ [] ∧ name ≠ "." ∧ name ≠ ".." ∧ Byte.slash ∉ name ∧ Byte.nul ∉ name ∧
      name.length ≤ nameLimit)
    ⟨fun ⟨h1, h2, h3, h4, h5, h6⟩ => ⟨h1, h2, h3, h4, h5, h6⟩,
      fun ⟨h1, h2, h3, h4, h5, h6⟩ => ⟨h1, h2, h3, h4, h5, h6⟩⟩

/-- The entries are a directory tree: each lies at a route of its own, under a proper name and in a
directory. -/
structure IsTree (s : Store) : Prop where
  distinct : s.Distinct
  route_ne_nil : ∀ e ∈ s.entries, e.1 ≠ []
  isFileName : ∀ e ∈ s.entries, ∀ name ∈ e.1, IsFileName name
  inDirectory : ∀ e ∈ s.entries, s.get? e.1.dropLast = some .directory

instance (s : Store) : Decidable s.IsTree :=
  decidable_of_iff (s.Distinct ∧ (∀ e ∈ s.entries, e.1 ≠ []) ∧
      (∀ e ∈ s.entries, ∀ name ∈ e.1, IsFileName name) ∧
      ∀ e ∈ s.entries, s.get? e.1.dropLast = some .directory)
    ⟨fun ⟨h1, h2, h3, h4⟩ => ⟨h1, h2, h3, h4⟩, fun ⟨h1, h2, h3, h4⟩ => ⟨h1, h2, h3, h4⟩⟩

namespace IsTree

variable {s : Store} (hs : s.IsTree)

include hs

theorem mem_iff_get? {r : Route} {e : Entry} (hr : r ≠ []) :
    (r, e) ∈ s.entries ↔ s.get? r = some e :=
  ⟨get?_of_mem hs.distinct hr, mem_of_get? hr⟩

/-- Everything on the way to an entry is a directory. -/
theorem get?_of_append {front back : Route} {e : Entry} (h : (front ++ back, e) ∈ s.entries)
    (hback : back ≠ []) : s.get? front = some .directory := by
  induction back using List.reverseRecOn generalizing e with
  | nil => exact absurd rfl hback
  | append_singleton back name ih =>
    have hdirectory := hs.inDirectory _ h
    rw [← List.append_assoc, List.dropLast_concat] at hdirectory
    by_cases hnil : back = []
    · rwa [hnil, List.append_nil] at hdirectory
    · exact ih (mem_of_get? (by simp [hnil]) hdirectory) hnil

theorem isFileName_of_append {r names : Route} {e : Entry} (h : (r ++ names, e) ∈ s.entries) :
    ∀ name ∈ names, IsFileName name :=
  fun name hname => hs.isFileName _ h name (List.mem_append_right r hname)

end IsTree

/-! ## Walks -/

theorem length_le_depth {s : Store} {e : Route × Entry} (h : e ∈ s.entries) :
    e.1.length ≤ s.depth := by
  unfold depth
  generalize s.entries = entries at h
  induction entries with
  | nil => cases h
  | cons entry rest ih =>
    rw [List.foldr_cons]
    rcases List.mem_cons.1 h with rfl | h
    · exact Nat.le_max_left _ _
    · exact Nat.le_trans (ih h) (Nat.le_max_right _ _)

section Walk

variable {s : Store} {enters : Text → Bool} {r : Route}

/-- What a walk comes to is an entry below where it started, behind directories that it may go
into. -/
theorem mem_walkFrom {levels : Nat} {names ns : Route} {e : Entry}
    (h : (ns, e) ∈ s.walkFrom enters r levels names) :
    ∃ name rest, ns = names ++ name :: rest ∧ (r ++ ns, e) ∈ s.entries ∧
      ∀ n ∈ (name :: rest).dropLast, enters n = true := by
  induction levels generalizing names with
  | zero => cases h
  | succ levels ih =>
    obtain ⟨⟨name, e'⟩, hchild, h⟩ := List.mem_flatMap.1 h
    rw [mem_children_iff, List.append_assoc] at hchild
    rcases List.mem_cons.1 h with heq | h
    · cases heq
      exact ⟨name, [], rfl, hchild, fun n hn => by cases hn⟩
    · split at h
      · rename_i henters
        rw [Bool.and_eq_true] at henters
        obtain ⟨next, rest, rfl, hmem, hrest⟩ := ih h
        refine ⟨name, next :: rest, by simp, hmem, ?_⟩
        rw [List.dropLast_cons_cons, List.forall_mem_cons]
        exact ⟨henters.2, hrest⟩
      · cases h

/-- A walk comes to every entry of a tree that is not too deep for it and behind directories that
it may go into. -/
theorem IsTree.mem_walkFrom (hs : s.IsTree) {levels : Nat} (names : Route) {rest : Route}
    {name : Text} {e : Entry} (hlevels : (name :: rest).length ≤ levels)
    (h : (r ++ (names ++ name :: rest), e) ∈ s.entries)
    (henters : ∀ n ∈ (name :: rest).dropLast, enters n = true) :
    (names ++ name :: rest, e) ∈ s.walkFrom enters r levels names := by
  induction levels generalizing names name rest with
  | zero => cases hlevels
  | succ levels ih =>
    rw [walkFrom, List.mem_flatMap]
    cases rest with
    | nil =>
      refine ⟨(name, e), mem_children_iff.2 ?_, List.mem_cons_self⟩
      rwa [List.append_assoc]
    | cons next rest =>
      have hway : r ++ (names ++ name :: next :: rest) =
          (r ++ names ++ [name]) ++ next :: rest := by simp
      rw [List.dropLast_cons_cons, List.forall_mem_cons] at henters
      have hdirectory : (r ++ names ++ [name], .directory) ∈ s.entries := by
        rw [hs.mem_iff_get? (by simp)]
        rw [hway] at h
        exact hs.get?_of_append h (List.cons_ne_nil _ _)
      refine ⟨(name, .directory), mem_children_iff.2 hdirectory, List.mem_cons_of_mem _ ?_⟩
      have hdeeper := ih (names ++ [name]) (Nat.le_of_succ_le_succ hlevels)
        (by rwa [List.append_assoc names]) henters.2
      simpa [henters.1] using hdeeper

/-- **A walk visits exactly what it may get to.** -/
theorem IsTree.mem_walk_iff (hs : s.IsTree) {names : Route} {e : Entry} :
    (names, e) ∈ s.walk enters r ↔
      names ≠ [] ∧ (r ++ names, e) ∈ s.entries ∧ ∀ n ∈ names.dropLast, enters n = true := by
  constructor
  · intro h
    obtain ⟨name, rest, rfl, hmem, henters⟩ := Store.mem_walkFrom h
    exact ⟨List.cons_ne_nil _ _, hmem, henters⟩
  · rintro ⟨hne, hmem, henters⟩
    obtain ⟨name, rest, rfl⟩ := List.exists_cons_of_ne_nil hne
    have hdepth := length_le_depth hmem
    rw [List.length_append] at hdepth
    exact hs.mem_walkFrom [] (Nat.le_trans (Nat.le_add_left _ _) hdepth) hmem henters

theorem mem_entriesBelow_of_mem_walk {e : Route × Entry} (h : e ∈ s.walk enters r) :
    e ∈ s.entriesBelow r := by
  obtain ⟨name, rest, hnames, hmem, -⟩ := Store.mem_walkFrom h
  exact mem_entriesBelow_iff.2 ⟨by simp [hnames], hmem⟩

/-- A walk visits nothing twice. -/
theorem nodup_walkFrom (hs : s.Distinct) (levels : Nat) (names : Route) :
    ((s.walkFrom enters r levels names).map Prod.fst).Nodup := by
  induction levels generalizing names with
  | zero => exact List.nodup_nil
  | succ levels ih =>
    rw [walkFrom, List.map_flatMap, List.nodup_flatMap]
    -- what comes with a child begins with the names of the child
    have hbegins : ∀ child ∈ s.children (r ++ names), ∀ ns ∈ ((names ++ [child.1], child.2) ::
        if child.2 = .directory && enters child.1 then
          s.walkFrom enters r levels (names ++ [child.1]) else []).map Prod.fst,
        ∃ rest, ns = names ++ child.1 :: rest := by
      rintro ⟨name, e⟩ - ns hns
      rw [List.map_cons, List.mem_cons] at hns
      rcases hns with rfl | hns
      · exact ⟨[], rfl⟩
      · split at hns
        · obtain ⟨⟨ns, f⟩, hmem, rfl⟩ := List.mem_map.1 hns
          obtain ⟨next, rest, rfl, -⟩ := Store.mem_walkFrom hmem
          exact ⟨next :: rest, by simp⟩
        · cases hns
    constructor
    · rintro ⟨name, e⟩ -
      rw [List.map_cons, List.nodup_cons]
      split
      · refine ⟨?_, ih _⟩
        intro hmem
        obtain ⟨⟨ns, f⟩, hmem, hns⟩ := List.mem_map.1 hmem
        obtain ⟨next, rest, hrest, -⟩ := Store.mem_walkFrom hmem
        simp_all
      · exact ⟨List.not_mem_nil, List.nodup_nil⟩
    · have hchildren := nodup_children hs (r ++ names)
      rw [List.Nodup, List.pairwise_map] at hchildren
      refine hchildren.imp_of_mem ?_
      intro child child' hmem hmem' hne ns hns hns'
      obtain ⟨rest, rfl⟩ := hbegins child hmem ns hns
      obtain ⟨rest', heq⟩ := hbegins child' hmem' _ hns'
      exact hne (List.cons.inj (List.append_cancel_left heq)).1

theorem nodup_walk (hs : s.Distinct) : ((s.walk enters r).map Prod.fst).Nodup :=
  nodup_walkFrom hs _ _

end Walk

/-- **A walk into every directory visits what is below its root, each entry once.** -/
theorem walk_perm_entriesBelow {s : Store} (hs : s.IsTree) (r : Route) :
    (s.walk (fun _ => true) r).Perm (s.entriesBelow r) := by
  rw [List.perm_ext_iff_of_nodup (nodup_walk hs.distinct).of_map
    (nodup_entriesBelow hs.distinct r).of_map]
  rintro ⟨names, e⟩
  rw [hs.mem_walk_iff, mem_entriesBelow_iff]
  simp

/-! ## The order in which a store lists its entries -/

section Listing

variable {s s' : Store} (hs : s.IsTree) (h : s'.entries.Perm s.entries)

include hs h

theorem get?_of_perm (r : Route) : s'.get? r = s.get? r := by
  by_cases hr : r = []
  · rw [hr, get?_nil, get?_nil]
  · have hdistinct : s'.Distinct := (h.map Prod.fst).nodup_iff.2 hs.distinct
    apply Option.ext
    intro e
    rw [← hs.mem_iff_get? hr, ← h.mem_iff]
    exact ⟨mem_of_get? hr, get?_of_mem hdistinct hr⟩

theorem isTree_of_perm : s'.IsTree where
  distinct := (h.map Prod.fst).nodup_iff.2 hs.distinct
  route_ne_nil e he := hs.route_ne_nil e (h.mem_iff.1 he)
  isFileName e he := hs.isFileName e (h.mem_iff.1 he)
  inDirectory e he := by
    rw [get?_of_perm hs h]
    exact hs.inDirectory e (h.mem_iff.1 he)

theorem follow_of_perm (r : Route) (names : List Text) :
    s'.follow r names = s.follow r names := by
  induction names generalizing r with
  | nil => rfl
  | cons name names ih =>
    unfold follow
    rw [get?_of_perm hs h]
    simp only [ih]

theorem resolve_of_perm (path : Text) : s'.resolve path = s.resolve path := by
  unfold resolve
  simp only [follow_of_perm hs h]

/-- A walk visits the same entries, in the order in which the store lists them. -/
theorem walk_perm_of_perm (enters : Text → Bool) (r : Route) :
    (s'.walk enters r).Perm (s.walk enters r) := by
  have hs' := isTree_of_perm hs h
  rw [List.perm_ext_iff_of_nodup (nodup_walk hs'.distinct).of_map (nodup_walk hs.distinct).of_map]
  rintro ⟨names, e⟩
  rw [hs'.mem_walk_iff, hs.mem_walk_iff, h.mem_iff]

end Listing

end MojoLint.Store
