import MojoLint.Proofs.Store.Frame
import MojoLint.Proofs.Store.Tree

/-!
# Paths below a directory

The path of an entry below `root` is `root` followed by the names of the entry. So it tells the
names (`Path.below_inj`), and it leads to the entry unless it is too long (`resolve_below`). The
latter stays true while files are taken away, since a path is followed through directories only.
-/

namespace MojoLint

namespace Path

/-- The names of a path below `root` are those of `root`, without the empty one behind a slash at
its end, and then the names below it. -/
theorem exists_names_below (root : Text) :
    ∃ front, (names root = front ∨ names root = front ++ [[]]) ∧
      ∀ ns, ns ≠ [] → (∀ name ∈ ns, Byte.slash ∉ name) → names (below root ns) = front ++ ns := by
  have hslash : ∀ (t : Text) ns, ns ≠ [] → (∀ name ∈ ns, Byte.slash ∉ name) →
      names (t ++ ("/" : Text) ++ List.intercalate "/" ns) = names t ++ ns := by
    intro t ns hne hns
    have happend : t ++ ("/" : Text) ++ List.intercalate "/" ns =
        t ++ Byte.slash :: List.intercalate [Byte.slash] ns := by
      rw [List.append_assoc]
      rfl
    rw [happend, names, List.splitOn_append_cons_self, List.splitOn_intercalate _ hns hne]
    rfl
  by_cases hends : Text.endsWith root "/" = true
  · obtain ⟨front, rfl⟩ := List.isSuffixOf_iff_suffix.1 hends
    refine ⟨names front, .inr ?_, fun ns hne hns => ?_⟩
    · exact List.splitOn_append_cons_self front []
    · rw [below, if_pos hends, hslash front ns hne hns]
  · refine ⟨names root, .inl rfl, fun ns hne hns => ?_⟩
    rw [below, if_neg hends, hslash root ns hne hns]

/-- The path of an entry below a directory tells the names that lead to it. -/
theorem below_inj {root : Text} {ns ns' : List Text} (hne : ns ≠ []) (hne' : ns' ≠ [])
    (hns : ∀ name ∈ ns, Byte.slash ∉ name) (hns' : ∀ name ∈ ns', Byte.slash ∉ name)
    (h : below root ns = below root ns') : ns = ns' := by
  obtain ⟨front, -, hfront⟩ := exists_names_below root
  have hnames := congrArg names h
  rw [hfront ns hne hns, hfront ns' hne' hns'] at hnames
  exact List.append_cancel_left hnames

theorem seen_of_notMem {path : Text} (h : Byte.nul ∉ path) : seen path = path := by
  have hall : ∀ b ∈ path, (b != Byte.nul) = true := by
    intro b hb
    rw [bne_iff_ne]
    rintro rfl
    exact h hb
  rw [seen, ← List.append_nil path, List.takeWhile_append_of_pos hall, List.takeWhile_nil]

theorem nul_notMem_intercalate {ns : List Text} (hns : ∀ name ∈ ns, Byte.nul ∉ name) :
    Byte.nul ∉ List.intercalate "/" ns := by
  induction ns with
  | nil => exact List.not_mem_nil
  | cons name ns ih =>
    obtain ⟨hname, hrest⟩ := List.forall_mem_cons.1 hns
    cases ns with
    | nil => rwa [List.intercalate_singleton]
    | cons next ns =>
      have hslash : Byte.nul ∉ ("/" : Text) := by decide
      rw [List.intercalate_cons_cons, List.mem_append, List.mem_append, not_or, not_or]
      exact ⟨⟨hname, hslash⟩, ih hrest⟩

theorem nul_notMem_below {root : Text} {ns : List Text} (hroot : Byte.nul ∉ root)
    (hns : ∀ name ∈ ns, Byte.nul ∉ name) : Byte.nul ∉ below root ns := by
  have hslash : Byte.nul ∉ ("/" : Text) := by decide
  rw [below, List.mem_append, not_or]
  refine ⟨?_, nul_notMem_intercalate hns⟩
  split
  · exact hroot
  · rw [List.mem_append, not_or]
    exact ⟨hroot, hslash⟩

end Path

namespace Store

theorem follow_append_eq_ok_iff {s : Store} {r t : Route} {xs ys : List Text} :
    s.follow r (xs ++ ys) = .ok t ↔ ∃ q, s.follow r xs = .ok q ∧ s.follow q ys = .ok t := by
  induction xs generalizing r with
  | nil => simp [follow]
  | cons x xs ih =>
    rw [List.cons_append, follow, follow]
    split
    · simp
    · simp
    · split
      · exact ih
      · split
        · exact ih
        · split
          · simp
          · exact ih

/-- Where an empty name can be followed, it leads nowhere else. -/
theorem eq_of_follow_empty {s : Store} {r t : Route} (h : s.follow r [[]] = .ok t) : r = t := by
  rw [follow] at h
  split at h
  · cases h
  · cases h
  · simpa [follow] using h

namespace ChangedOnlyAt

variable {rs : Route → Prop} {s s' : Store} (h : ChangedOnlyAt rs s s') (hs : s.IsTree)

include h hs

/-- The names of an entry lead to it. -/
theorem follow_names {r names : Route} {e : Entry} (he : (r ++ names, e) ∈ s.entries) :
    s'.follow r names = .ok (r ++ names) := by
  induction names generalizing r with
  | nil => rw [List.append_nil, Store.follow]
  | cons name names ih =>
    have hname := hs.isFileName_of_append he name List.mem_cons_self
    have hdirectory := h.directory r (hs.get?_of_append he (List.cons_ne_nil _ _))
    rw [List.append_cons] at he ⊢
    unfold Store.follow
    simp only [hdirectory, hname.ne_nil, hname.ne_dot, hname.ne_dots, Nat.not_lt.2 hname.fits,
      decide_false, Bool.or_self, Bool.false_eq_true, if_false]
    exact ih he

/-- **The path of an entry below a directory leads to it, unless it is too long.** -/
theorem resolve_below {root : Text} {r names : Route} {e : Entry} (hroot : Byte.nul ∉ root)
    (hr : s.resolve root = .ok r) (hne : names ≠ []) (he : (r ++ names, e) ∈ s.entries) :
    s'.resolve (Path.below root names) =
      if pathLimit < (Path.below root names).length then .error .tooLong
      else .ok (r ++ names) := by
  have hnames := hs.isFileName_of_append he
  obtain ⟨front, hfront, hbelow⟩ := Path.exists_names_below root
  have hfollow : s.follow [] front = .ok r := by
    unfold Store.resolve at hr
    simp only [Path.seen_of_notMem hroot] at hr
    split at hr
    · cases hr
    · split at hr
      · cases hr
      · rcases hfront with hfront | hfront <;> rw [hfront] at hr
        · exact hr
        · obtain ⟨q, hq, hstay⟩ := follow_append_eq_ok_iff.1 hr
          rwa [eq_of_follow_empty hstay] at hq
  have hfollow' : s'.follow [] (Path.names (Path.below root names)) = .ok (r ++ names) := by
    rw [hbelow names hne fun name hname => (hnames name hname).no_slash]
    exact follow_append_eq_ok_iff.2 ⟨r, h.follow hfollow, h.follow_names hs he⟩
  have hseen : Path.seen (Path.below root names) = Path.below root names :=
    Path.seen_of_notMem (Path.nul_notMem_below hroot fun name hname => (hnames name hname).no_nul)
  have hsome : (Path.below root names).isEmpty = false := by
    unfold Path.below
    split
    · rename_i hends
      cases root with
      | nil => cases hends
      | cons b root => rfl
    · cases root <;> rfl
  unfold Store.resolve
  simp only [hseen, hsome, hfollow', Bool.false_eq_true, if_false]

end ChangedOnlyAt

end Store

end MojoLint
