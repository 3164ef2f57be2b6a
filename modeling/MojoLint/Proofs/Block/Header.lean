import MojoLint.Block.Header

/-!
# The lines of a header

`onHeader` says which lines a header takes up when its lines are lexed in some way, each line as a
list of tokens. The header search lexes every line on its own; the structure scan leaves out what
lies inside a docstring. Where both see the same tokens they see the same header
(`onHeader_congr`).
-/

namespace MojoLint.Block

/-- Whether the token is a string, a part of one, or a comment. -/
def isProse (t : Token) : Bool := t.isString || t.kind == .comment

/-- What stands behind the colon that opens the block, on a line entered `depth` brackets deep. -/
def behindColon (depth : Nat) : List Token → List Token
  | [] => []
  | t :: ts =>
    if opens t then behindColon (depth + 1) ts
    else if closes t then behindColon (depth - 1) ts
    else if t.isPunct ":" && depth == 0 then ts
    else behindColon depth ts

/-- Whether line `n` belongs to the header that the lines start with, `depth` brackets deep, and
holds no code behind the colon that opens the block. -/
def onHeader (depth : Nat) : List (List Token) → Nat → Bool
  | [], _ => false
  | ts :: _, 0 => (behindColon depth ts).all isProse
  | ts :: rest, n + 1 =>
    match depthAfter depth ts with
    | some (d + 1) => onHeader (d + 1) rest n
    | _ => false

theorem behindColon_of_depthAfter {depth d : Nat} {ts : List Token}
    (h : depthAfter depth ts = some d) : behindColon depth ts = [] := by
  induction ts generalizing depth with
  | nil => rfl
  | cons t ts ih =>
    unfold depthAfter at h
    unfold behindColon
    split at h
    · rename_i hopens
      rw [if_pos hopens, ih h]
    · rename_i hopens
      rw [if_neg hopens]
      split at h
      · rename_i hcloses
        rw [if_pos hcloses, ih h]
      · rename_i hcloses
        rw [if_neg hcloses]
        split at h
        · cases h
        · rename_i hcolon
          rw [if_neg hcolon, ih h]

/-- Before the line with its colon, every line belongs to the header. -/
theorem onHeader_of_lt {depth n k : Nat} {ls : List Text} (h : linesToColon depth ls = some n)
    (hk : k < n) : onHeader depth (ls.map Token.ofLine) k = true := by
  induction ls generalizing depth n k with
  | nil => cases h
  | cons line rest ih =>
    unfold linesToColon at h
    split at h
    · cases h
      cases hk
    · cases h
    · rename_i d hd
      obtain ⟨n, hn, rfl⟩ := Option.map_eq_some_iff.1 h
      cases k with
      | zero => simp [onHeader, behindColon_of_depthAfter hd]
      | succ k =>
        simp only [List.map_cons, onHeader, hd]
        exact ih hn (Nat.lt_of_succ_lt_succ hk)

/-- Whether a line belongs to a header depends on the lines up to it alone. -/
theorem onHeader_congr {depth n : Nat} {xs ys : List (List Token)}
    (h : ∀ i ≤ n, xs[i]? = ys[i]?) : onHeader depth xs n = onHeader depth ys n := by
  induction n generalizing depth xs ys with
  | zero =>
    have h0 := h 0 (Nat.le_refl 0)
    cases xs <;> cases ys <;> simp_all [onHeader]
  | succ n ih =>
    have h0 := h 0 (Nat.zero_le _)
    cases xs with
    | nil =>
      cases ys with
      | nil => rfl
      | cons => simp at h0
    | cons x xs =>
      cases ys with
      | nil => simp at h0
      | cons y ys =>
        obtain rfl : x = y := by simpa using h0
        have htail : ∀ i ≤ n, xs[i]? = ys[i]? := fun i hi => h (i + 1) (Nat.succ_le_succ hi)
        unfold onHeader
        split
        · exact ih htail
        · rfl

end MojoLint.Block
