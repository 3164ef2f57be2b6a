import MojoLint.Store.Medium

/-!
# What writing leaves alone

A store is only ever changed at single routes, and never by taking a directory away from under a
path. `ChangedOnlyAt` says so for two stores. It composes along a run, and it carries the one fact
that every argument about a run needs: a path that led to a route still leads there
(`ChangedOnlyAt.resolve`), although its names are followed through a store that has changed.

Reading, writing and copying are then described by the entries at routes.

The store decides whether a path leads anywhere, but not where: that is read off the path alone
(`Path.route`, `resolve_eq_route`). So what a step may change is known from the paths it was given.
-/

namespace MojoLint

namespace Path

/-- The route that names lead to from `r`, where each of them can be followed. -/
def along (r : Route) : List Text → Route
  | [] => r
  | name :: names =>
    if name = [] || name = "." then along r names
    else if name = ".." then along r.dropLast names
    else along (r ++ [name]) names

/-- The route that a path leads to in every store where it leads anywhere. -/
def route (path : Text) : Route := along [] (names (seen path))

end Path

namespace Store

/-- `s'` has the entries of `s` outside the routes `rs`, and all of its directories. -/
structure ChangedOnlyAt (rs : Route → Prop) (s s' : Store) : Prop where
  entry : ∀ q, ¬ rs q → s'.get? q = s.get? q
  directory : ∀ q, s.get? q = some .directory → s'.get? q = some .directory

namespace ChangedOnlyAt

theorem refl (rs : Route → Prop) (s : Store) : ChangedOnlyAt rs s s :=
  ⟨fun _ _ => rfl, fun _ h => h⟩

theorem trans {rs : Route → Prop} {s s' s'' : Store} (h : ChangedOnlyAt rs s s')
    (h' : ChangedOnlyAt rs s' s'') : ChangedOnlyAt rs s s'' :=
  ⟨fun q hq => (h'.entry q hq).trans (h.entry q hq), fun q hq => h'.directory q (h.directory q hq)⟩

theorem mono {rs rs' : Route → Prop} {s s' : Store} (h : ChangedOnlyAt rs s s')
    (hrs : ∀ q, rs q → rs' q) : ChangedOnlyAt rs' s s' :=
  ⟨fun q hq => h.entry q fun hr => hq (hrs q hr), h.directory⟩

/-- Names that could be followed still lead to the same route: each one was followed from a
directory, and the directories are still there. -/
theorem follow {rs : Route → Prop} {s s' : Store} (h : ChangedOnlyAt rs s s') {r q : Route}
    {names : List Text} (hf : s.follow r names = .ok q) : s'.follow r names = .ok q := by
  induction names generalizing r with
  | nil => exact hf
  | cons name names ih =>
    unfold Store.follow at hf ⊢
    cases hr : s.get? r with
    | none => simp [hr] at hf
    | some e =>
      cases e with
      | file content written => simp [hr] at hf
      | directory =>
        rw [hr] at hf
        rw [h.directory r hr]
        simp only at hf ⊢
        split
        · rename_i hn
          rw [if_pos hn] at hf
          exact ih hf
        · rename_i hn
          rw [if_neg hn] at hf
          split
          · rename_i hp
            rw [if_pos hp] at hf
            exact ih hf
          · rename_i hp
            rw [if_neg hp] at hf
            split
            · rename_i hl
              rw [if_pos hl] at hf
              exact hf
            · rename_i hl
              rw [if_neg hl] at hf
              exact ih hf

/-- A path that led to a route still leads there. -/
theorem resolve {rs : Route → Prop} {s s' : Store} (h : ChangedOnlyAt rs s s') {path : Text}
    {r : Route} (hr : s.resolve path = .ok r) : s'.resolve path = .ok r := by
  unfold Store.resolve at hr ⊢
  simp only at hr ⊢
  split
  · rename_i he
    rw [if_pos he] at hr
    exact hr
  · rename_i he
    rw [if_neg he] at hr
    split
    · rename_i hl
      rw [if_pos hl] at hr
      exact hr
    · rename_i hl
      rw [if_neg hl] at hr
      exact h.follow hr

end ChangedOnlyAt

/-! ## Reading and finding a place to write, by entries -/

theorem file_eq_ok_iff {s : Store} {path : Text} {r : Route} {content : Text} :
    s.file path = .ok (r, content) ↔
      s.resolve path = .ok r ∧ ∃ written, s.get? r = some (.file content written) := by
  constructor
  · intro h
    unfold file at h
    split at h
    · cases h
    · rename_i q hq
      split at h
      · rename_i c written hw
        cases h
        exact ⟨hq, written, hw⟩
      · cases h
      · cases h
  · rintro ⟨hr, written, hw⟩
    simp [file, hr, hw]

theorem read_eq_ok_iff {s : Store} {path content : Text} :
    s.read path = .ok content ↔
      ∃ r written, s.resolve path = .ok r ∧ s.get? r = some (.file content written) := by
  constructor
  · intro h
    unfold read at h
    split at h
    · rename_i r c hf
      cases h
      obtain ⟨hr, written, hw⟩ := file_eq_ok_iff.1 hf
      exact ⟨r, written, hr, hw⟩
    · cases h
  · rintro ⟨r, written, hr, hw⟩
    rw [read, file_eq_ok_iff.2 ⟨hr, written, hw⟩]

theorem target_eq_ok_iff {s : Store} {path : Text} {r : Route} :
    s.target path = .ok r ↔ s.resolve path = .ok r ∧ s.get? r ≠ some .directory := by
  constructor
  · intro h
    unfold target at h
    split at h
    · cases h
    · rename_i q hq
      split at h
      · cases h
      · rename_i hd
        cases h
        exact ⟨hq, hd⟩
  · rintro ⟨hr, hd⟩
    simp [target, hr]

theorem ne_nil_of_not_directory {s : Store} {r : Route} (h : s.get? r ≠ some .directory) :
    r ≠ [] := by
  rintro rfl
  exact h (get?_nil s)

/-! ## One change at a time -/

theorem changedOnlyAt_put {s : Store} {r : Route} (h : s.get? r ≠ some .directory) (e : Entry) :
    ChangedOnlyAt (· = r) s (s.put r e) := by
  refine ⟨fun q hq => get?_put_of_ne s hq e, fun q hq => ?_⟩
  have hne : q ≠ r := by
    rintro rfl
    exact h hq
  rw [get?_put_of_ne s hne e]
  exact hq

theorem changedOnlyAt_erase {s : Store} {r : Route} (h : s.get? r ≠ some .directory) :
    ChangedOnlyAt (· = r) s (s.erase r) := by
  refine ⟨fun q hq => get?_erase_of_ne s hq, fun q hq => ?_⟩
  have hne : q ≠ r := by
    rintro rfl
    exact h hq
  rw [get?_erase_of_ne s hne]
  exact hq

/-- Whatever becomes of the bytes on their way, only the file they were meant for changes. -/
theorem changedOnlyAt_deliver {s : Store} {r : Route} (h : s.get? r ≠ some .directory)
    (content : Text) (d : Delivery) : ChangedOnlyAt (· = r) s (s.deliver r content d).store := by
  cases d with
  | faithful => exact changedOnlyAt_put h _
  | broken fault left =>
    cases left with
    | none => exact .refl _ s
    | some left => exact changedOnlyAt_put h _

theorem deliver_error_eq_none_iff {s : Store} {r : Route} {content : Text} {d : Delivery} :
    (s.deliver r content d).error = none ↔ d = .faithful := by
  cases d with
  | faithful => simp [deliver]
  | broken fault left => cases left <;> simp [deliver]

/-- A delivery without an error has brought the bytes into the file. -/
theorem get?_deliver {s : Store} {r : Route} (h : r ≠ []) {content : Text} {d : Delivery}
    (hd : (s.deliver r content d).error = none) :
    (s.deliver r content d).store.get? r = some (.file content s.now) := by
  rw [deliver_error_eq_none_iff] at hd
  subst hd
  exact get?_put_self s h _

/-- A file stays a file, whatever is delivered to it. -/
theorem exists_file_deliver {s : Store} {r : Route} {old : Text} {written : Int64}
    (h : s.get? r = some (.file old written)) (content : Text) (d : Delivery) :
    ∃ c w, (s.deliver r content d).store.get? r = some (.file c w) := by
  have hne : r ≠ [] := ne_nil_of_not_directory (s := s) (by simp [h])
  cases d with
  | faithful => exact ⟨_, _, get?_put_self s hne _⟩
  | broken fault left =>
    cases left with
    | none => exact ⟨_, _, h⟩
    | some left => exact ⟨_, _, get?_put_self s hne _⟩

/-! ## Writing and copying -/

theorem write_eq_deliver {s : Store} {path : Text} {r : Route} (h : s.target path = .ok r)
    (content : Text) (delivery : Text → Delivery) :
    s.write path content delivery = s.deliver r content (delivery content) := by
  unfold write
  rw [h]

/-- A copy is refused and leaves the store as it is, or it delivers the bytes of one file to the
place of another. -/
theorem copy_cases (s : Store) (source target : Text) (delivery : Text → Delivery) :
    ((s.copy source target delivery).store = s ∧ (s.copy source target delivery).error ≠ none) ∨
    ∃ r origin content, s.target target = .ok r ∧ s.file source = .ok (origin, content) ∧
      r ≠ origin ∧ s.copy source target delivery = s.deliver r content (delivery content) := by
  unfold copy
  split
  · exact .inl ⟨rfl, by simp⟩
  · exact .inl ⟨rfl, by simp⟩
  · exact .inl ⟨rfl, by simp⟩
  · rename_i r origin content ht hf
    split
    · exact .inl ⟨rfl, by simp⟩
    · rename_i hne
      exact .inr ⟨r, origin, content, ht, hf, hne, rfl⟩

/-- Removing a file takes away its entry and nothing else. -/
theorem remove_of_file {s : Store} {path : Text} {r : Route} {content : Text} {written : Int64}
    (hr : s.resolve path = .ok r) (h : s.get? r = some (.file content written)) :
    s.remove path = ⟨s.erase r, none⟩ := by
  unfold remove
  simp [hr, h]

/-! ## The entry that a path is for -/

theorem follow_eq_along {s : Store} {r q : Route} {names : List Text}
    (h : s.follow r names = .ok q) : q = Path.along r names := by
  induction names generalizing r with
  | nil =>
    cases h
    rfl
  | cons name names ih =>
    unfold follow at h
    unfold Path.along
    split at h
    · cases h
    · cases h
    · split at h
      · rename_i hstay
        rw [if_pos hstay]
        exact ih h
      · rename_i hstay
        rw [if_neg hstay]
        split at h
        · rename_i hback
          rw [if_pos hback]
          exact ih h
        · rename_i hback
          rw [if_neg hback]
          split at h
          · cases h
          · exact ih h

/-- **Where a path leads does not depend on the store.** -/
theorem resolve_eq_route {s : Store} {path : Text} {r : Route} (h : s.resolve path = .ok r) :
    r = Path.route path := by
  unfold resolve at h
  simp only at h
  split at h
  · cases h
  · split at h
    · cases h
    · exact follow_eq_along h

theorem get?_deliver_of_ne (s : Store) {r q : Route} (h : q ≠ r) (content : Text) (d : Delivery) :
    (s.deliver r content d).store.get? q = s.get? q := by
  cases d with
  | faithful => exact get?_put_of_ne s h _
  | broken fault left =>
    cases left with
    | none => rfl
    | some left => exact get?_put_of_ne s h _

theorem get?_write_of_ne (s : Store) {path : Text} {q : Route} (h : q ≠ Path.route path)
    (content : Text) (delivery : Text → Delivery) :
    (s.write path content delivery).store.get? q = s.get? q := by
  unfold write
  split
  · rfl
  · rename_i r hr
    apply get?_deliver_of_ne
    rwa [resolve_eq_route (target_eq_ok_iff.1 hr).1]

theorem get?_copy_of_ne (s : Store) (source : Text) {target : Text} {q : Route}
    (h : q ≠ Path.route target) (delivery : Text → Delivery) :
    (s.copy source target delivery).store.get? q = s.get? q := by
  rcases s.copy_cases source target delivery with ⟨hs, -⟩ | ⟨r, _, content, hr, -, -, hc⟩
  · rw [hs]
  · rw [hc]
    apply get?_deliver_of_ne
    rwa [resolve_eq_route (target_eq_ok_iff.1 hr).1]

theorem get?_remove_of_ne (s : Store) {path : Text} {q : Route} (h : q ≠ Path.route path) :
    (s.remove path).store.get? q = s.get? q := by
  unfold remove
  split
  · rfl
  · rfl
  · rename_i r hr
    have hne : q ≠ r := by rwa [resolve_eq_route hr]
    split
    · split
      · exact get?_erase_of_ne s hne
      · rfl
    · exact get?_erase_of_ne s hne

/-- Deleting takes away what is at a path and below it. -/
theorem get?_delete_of_not_prefix (s : Store) {path : Text} {q : Route}
    (h : ¬ Path.route path <+: q) : (s.delete path).get? q = s.get? q := by
  unfold delete
  split
  · rfl
  · rename_i r hr
    rw [← resolve_eq_route hr, ← List.isPrefixOf_iff_prefix] at h
    unfold get?
    split
    · rfl
    · congr 1
      rw [List.find?_filter]
      congr 1
      funext e
      by_cases he : e.1 = q
      · simp [he, h]
      · simp [he]

/-- Directories are only made where nothing is. -/
theorem get?_makeAlong {s : Store} {q : Route} {e : Entry} (h : s.get? q = some e) (r : Route)
    (names : List Text) : (s.makeAlong r names).get? q = some e := by
  induction names generalizing s r with
  | nil => exact h
  | cons name names ih =>
    unfold makeAlong
    split
    · exact ih h r
    · split
      · exact ih h _
      · simp only
        split
        · exact ih h _
        · exact h
        · rename_i hnone
          split
          · exact h
          · have hne : q ≠ r ++ [name] := by
              rintro rfl
              rw [h] at hnone
              cases hnone
            exact ih ((get?_put_of_ne s hne _).trans h) _

theorem get?_place_of_ne {s : Store} {path : Text} {q : Route} {e : Entry} (he : s.get? q = some e)
    (h : q ≠ Path.route path) (content : Text) : (s.place path content).get? q = some e := by
  have hmade := get?_makeAlong he [] (Path.names (Path.seen path)).dropLast
  unfold place
  simp only
  split
  · exact hmade
  · rename_i r hr
    have hne : q ≠ r := by rwa [resolve_eq_route (target_eq_ok_iff.1 hr).1]
    exact (get?_put_of_ne _ hne _).trans hmade

end Store

end MojoLint
