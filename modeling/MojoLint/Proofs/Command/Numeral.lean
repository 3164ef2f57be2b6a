import Mathlib.Data.List.Basic
import Mathlib.Data.List.Induction
import MojoLint.Command.Numeral
import MojoLint.Proofs.Text.Basic

/-!
# The form of numerals

How a number may be written, with its value, is described here by a grammar (`IsNumeral`). A text is
read as a number exactly when it is one of its numerals and the number fits into 32 bits
(`intValue?_eq_some_iff`). The decimal digits that stand for a number in messages are a numeral of
it (`isNumeral_ofInt`).
-/

namespace MojoLint.Command

/-! ## Numerals -/

/-- The digits in the order of their values, with small letters. -/
def smallDigits : Text := "0123456789abcdef"

/-- The digits in the order of their values, with capital letters. -/
def capitalDigits : Text := "0123456789ABCDEF"

/-- The byte is a digit of the base, with the value `d`. -/
def IsDigit (base : Nat) (b : UInt8) (d : Nat) : Prop :=
  d < base ∧ (smallDigits[d]? = some b ∨ capitalDigits[d]? = some b)

/-- Digits of the base, at least one, and the number that they stand for. -/
inductive IsDigits (base : Nat) : Text → Nat → Prop
  | single {b : UInt8} {d : Nat} (digit : IsDigit base b d) : IsDigits base [b] d
  | concat {t : Text} {n : Nat} {b : UInt8} {d : Nat} (digits : IsDigits base t n)
      (digit : IsDigit base b d) : IsDigits base (t ++ [b]) (base * n + d)

/-- How a number without a sign is written. Decimal digits only start with a zero when there is no
other digit. -/
inductive IsMagnitude : Text → Nat → Prop
  | decimal {b : UInt8} {t : Text} {n : Nat} (digits : IsDigits 10 (b :: t) n)
      (leading : b = Byte.zero → t = []) : IsMagnitude (b :: t) n
  | octal {t : Text} {n : Nat} (digits : IsDigits 8 t n) : IsMagnitude (Byte.zero :: t) n
  | marked {mark t : Text} {base n : Nat} (known : (mark, base) ∈ baseMarks)
      (digits : IsDigits base t n) : IsMagnitude (mark ++ t) n

/-- How a number is written. -/
inductive IsNumeral : Text → Int → Prop
  | unsigned {t : Text} {n : Nat} (magnitude : IsMagnitude t n) : IsNumeral t n
  | minus {t : Text} {n : Nat} (magnitude : IsMagnitude t n) : IsNumeral ("-" ++ t) (-n)

/-! ## Digits -/

theorem digitValue?_eq_some_iff {b : UInt8} {d : Nat} :
    digitValue? b = some d ↔ smallDigits[d]? = some b ∨ capitalDigits[d]? = some b := by
  have hread : ∀ {b : UInt8}, ∀ d ∈ digitValue? b,
      smallDigits[d]? = some b ∨ capitalDigits[d]? = some b := @(Byte.all (by decide +kernel))
  have hwritten : ∀ d < 16, (∀ b ∈ smallDigits[d]?, digitValue? b = some d) ∧
      ∀ b ∈ capitalDigits[d]?, digitValue? b = some d := by decide +kernel
  refine ⟨hread d, fun h => ?_⟩
  have hlt : d < 16 := by
    rcases h with h | h <;> exact (List.getElem?_eq_some_iff.1 h).1
  exact h.elim ((hwritten d hlt).1 b) ((hwritten d hlt).2 b)

theorem withDigit?_eq_some_iff {base n m : Nat} {b : UInt8} :
    withDigit? base n b = some m ↔ ∃ d, IsDigit base b d ∧ base * n + d = m := by
  unfold withDigit? IsDigit
  simp only [← digitValue?_eq_some_iff]
  cases digitValue? b with
  | none => simp
  | some d =>
    simp only [Option.ite_none_right_eq_some, Option.some.injEq]
    constructor
    · rintro ⟨hlt, rfl⟩
      exact ⟨d, ⟨hlt, rfl⟩, rfl⟩
    · rintro ⟨_, ⟨hlt, rfl⟩, rfl⟩
      exact ⟨hlt, rfl⟩

theorem IsDigits.ne_nil {base : Nat} {t : Text} {n : Nat} (h : IsDigits base t n) : t ≠ [] := by
  cases h <;> simp

theorem digitsValue?_eq_some_iff {base : Nat} {t : Text} {n : Nat} :
    digitsValue? base t = some n ↔ IsDigits base t n := by
  have hconcat : ∀ t b, (t ++ [b]).foldlM (withDigit? base) 0 =
      (t.foldlM (withDigit? base) 0).bind fun n => withDigit? base n b := by
    intro t b
    rw [List.foldlM_append]
    simp
  constructor
  · intro h
    unfold digitsValue? at h
    split at h
    · cases h
    rename_i hne
    induction t using List.reverseRecOn generalizing n with
    | nil => exact absurd rfl hne
    | append_singleton t b ih =>
      rw [hconcat, Option.bind_eq_some_iff] at h
      obtain ⟨m, hm, hb⟩ := h
      obtain ⟨d, hd, rfl⟩ := withDigit?_eq_some_iff.1 hb
      cases t with
      | nil =>
        cases hm
        rw [Nat.mul_zero, Nat.zero_add]
        exact .single hd
      | cons c t => exact .concat (ih Bool.false_ne_true hm) hd
  · intro h
    rw [digitsValue?, List.isEmpty_eq_false_iff.2 h.ne_nil, if_neg Bool.false_ne_true]
    induction h with
    | @single b d digit =>
      have hd := withDigit?_eq_some_iff (n := 0).2 ⟨d, digit, rfl⟩
      rw [Nat.mul_zero, Nat.zero_add] at hd
      exact (hconcat [] b).trans hd
    | concat digits digit ih =>
      rw [hconcat, ih]
      exact withDigit?_eq_some_iff.2 ⟨_, digit, rfl⟩

theorem IsDigits.exists_isDigit {base : Nat} {t : Text} {n : Nat} (h : IsDigits base t n) :
    ∀ b ∈ t, ∃ d, IsDigit base b d := by
  induction h with
  | single digit => exact List.forall_mem_singleton.2 ⟨_, digit⟩
  | concat digits digit ih =>
    exact List.forall_mem_append.2 ⟨ih, List.forall_mem_singleton.2 ⟨_, digit⟩⟩

/-- The digits of the smaller bases are decimal digits. -/
theorem IsDigits.isDigit {base : Nat} (hbase : base ≤ 10) {t : Text} {n : Nat}
    (h : IsDigits base t n) : ∀ b ∈ t, Byte.isDigit b = true := by
  have hdecimal : ∀ d < 10, (∀ b ∈ smallDigits[d]?, Byte.isDigit b = true) ∧
      ∀ b ∈ capitalDigits[d]?, Byte.isDigit b = true := by decide +kernel
  intro b hb
  obtain ⟨d, hlt, hd⟩ := h.exists_isDigit b hb
  have hrow := hdecimal d (Nat.lt_of_lt_of_le hlt hbase)
  exact hd.elim (hrow.1 b) (hrow.2 b)

/-! ## Magnitudes -/

/-- No mark starts with two digits or stands in a single byte. -/
theorem baseAndDigits_of_digits {b : UInt8} {t : Text}
    (ht : ∀ c ∈ t.head?, Byte.isDigit c = true) :
    baseAndDigits (b :: t) = if b = Byte.zero ∧ t ≠ [] then (8, t) else (10, b :: t) := by
  have hmarks : ∀ entry ∈ baseMarks, ∃ m, entry.1 = [Byte.zero, m] ∧ Byte.isDigit m = false := by
    intro entry hentry
    simp only [baseMarks, List.mem_cons, List.not_mem_nil, or_false] at hentry
    rcases hentry with rfl | rfl | rfl | rfl | rfl <;> exact ⟨_, rfl, rfl⟩
  have hnone : baseMarks.find? (fun entry => Text.startsWith (b :: t) entry.1) = none := by
    rw [List.find?_eq_none]
    intro entry hentry hstarts
    obtain ⟨m, hm, hdigit⟩ := hmarks entry hentry
    obtain ⟨behind, hbytes⟩ := List.isPrefixOf_iff_prefix.1 hstarts
    rw [hm] at hbytes
    cases hbytes
    rw [ht m rfl] at hdigit
    cases hdigit
  cases t with
  | nil =>
    rw [if_neg fun h => h.2 rfl]
    simp only [baseAndDigits, hnone]
  | cons c t =>
    simp only [baseAndDigits, hnone, ht c rfl, Bool.and_true, decide_eq_true_eq, ne_eq,
      reduceCtorEq, not_false_eq_true, and_true]

theorem natValue?_eq_some_iff {t : Text} {n : Nat} : natValue? t = some n ↔ IsMagnitude t n := by
  constructor
  · intro h
    unfold natValue? at h
    rw [digitsValue?_eq_some_iff] at h
    unfold baseAndDigits at h
    split at h
    · rename_i mark base hfind
      have hstarts : mark.isPrefixOf t = true := by
        simpa [Text.startsWith] using List.find?_some hfind
      obtain ⟨behind, rfl⟩ := List.isPrefixOf_iff_prefix.1 hstarts
      rw [List.drop_left] at h
      exact .marked (List.mem_of_find?_eq_some hfind) h
    · split at h
      · rename_i a b rest _
        split at h
        · rename_i hzero
          obtain ⟨rfl, -⟩ : a = Byte.zero ∧ Byte.isDigit b = true := by simpa using hzero
          exact .octal h
        · rename_i hzero
          refine .decimal h fun ha => ?_
          have hb := h.isDigit (Nat.le_refl 10) b (by simp)
          exact absurd (by simp [ha, hb]) hzero
      · rename_i hshort
        obtain ⟨b, rest, rfl⟩ := List.exists_cons_of_ne_nil h.ne_nil
        cases rest with
        | nil => exact .decimal h fun _ => rfl
        | cons c rest => exact absurd rfl (hshort b c rest)
  · intro h
    rw [natValue?, digitsValue?_eq_some_iff]
    cases h with
    | @decimal b t n digits leading =>
      have ht : ∀ c ∈ t.head?, Byte.isDigit c = true := fun c hc =>
        digits.isDigit (Nat.le_refl 10) c (List.mem_cons_of_mem b (List.mem_of_head? hc))
      rw [baseAndDigits_of_digits ht, if_neg fun hzero => hzero.2 (leading hzero.1)]
      exact digits
    | @octal t n digits =>
      have ht : ∀ c ∈ t.head?, Byte.isDigit c = true := fun c hc =>
        digits.isDigit (by decide) c (List.mem_of_head? hc)
      rw [baseAndDigits_of_digits ht, if_pos ⟨rfl, digits.ne_nil⟩]
      exact digits
    | @marked mark t base n known digits =>
      have hmark : baseAndDigits (mark ++ t) = (base, t) := by
        simp only [baseMarks, List.mem_cons, Prod.mk.injEq, List.not_mem_nil, or_false] at known
        rcases known with ⟨rfl, rfl⟩ | ⟨rfl, rfl⟩ | ⟨rfl, rfl⟩ | ⟨rfl, rfl⟩ | ⟨rfl, rfl⟩ <;> rfl
      rw [hmark]
      exact digits

/-! ## Signs -/

theorem IsMagnitude.startsWith_eq_false {t : Text} {n : Nat} (h : IsMagnitude t n) :
    Text.startsWith t "-" = false := by
  have hdigit : ∀ {b : UInt8} (t : Text), Byte.isDigit b = true →
      Text.startsWith (b :: t) "-" = false := by
    intro b t hb
    refine Bool.eq_false_iff.2 fun hstarts => ?_
    obtain ⟨behind, hbytes⟩ := List.isPrefixOf_iff_prefix.1 hstarts
    cases hbytes
    cases hb
  cases h with
  | decimal digits leading => exact hdigit _ (digits.isDigit (Nat.le_refl 10) _ List.mem_cons_self)
  | octal digits => exact hdigit _ rfl
  | marked known digits =>
    simp only [baseMarks, List.mem_cons, Prod.mk.injEq, List.not_mem_nil, or_false] at known
    rcases known with ⟨rfl, rfl⟩ | ⟨rfl, rfl⟩ | ⟨rfl, rfl⟩ | ⟨rfl, rfl⟩ | ⟨rfl, rfl⟩ <;>
      exact hdigit _ rfl

/-- **A number is read from its numerals**, when it fits into 32 bits, and from no other text. -/
theorem intValue?_eq_some_iff {t : Text} {n : Int} :
    intValue? t = some n ↔ IsNumeral t n ∧ fits n = true := by
  rw [intValue?, Option.filter_eq_some_iff]
  refine and_congr_left fun _ => ?_
  by_cases hminus : Text.startsWith t "-" = true
  · obtain ⟨t, rfl⟩ := List.isPrefixOf_iff_prefix.1 hminus
    have hdrop : (("-" : Text) ++ t).drop 1 = t := rfl
    rw [if_pos hminus, hdrop, Option.map_eq_some_iff]
    constructor
    · rintro ⟨m, hm, rfl⟩
      exact .minus (natValue?_eq_some_iff.1 hm)
    · intro h
      generalize hbytes : ("-" : Text) ++ t = bytes at h hminus
      cases h with
      | unsigned magnitude =>
        rw [magnitude.startsWith_eq_false] at hminus
        cases hminus
      | minus magnitude =>
        obtain rfl := List.append_cancel_left hbytes
        exact ⟨_, natValue?_eq_some_iff.2 magnitude, rfl⟩
  · rw [if_neg hminus, Option.map_eq_some_iff]
    constructor
    · rintro ⟨m, hm, rfl⟩
      exact .unsigned (natValue?_eq_some_iff.1 hm)
    · intro h
      cases h with
      | unsigned magnitude => exact ⟨_, natValue?_eq_some_iff.2 magnitude, rfl⟩
      | minus magnitude =>
        exact absurd (List.isPrefixOf_iff_prefix.2 (List.prefix_append _ _)) hminus

/-! ## Numbers in messages -/

/-- Decimal digits without a superfluous zero. -/
theorem isDigits_ofNat (n : Nat) :
    IsDigits 10 (Text.ofNat n) n ∧ (0 < n → (Text.ofNat n).head? ≠ some Byte.zero) := by
  have hdigit : ∀ d < 10, IsDigit 10 (Nat.digitChar d).toUInt8 d ∧
      (0 < d → (Nat.digitChar d).toUInt8 ≠ Byte.zero) := by
    unfold IsDigit
    decide +kernel
  induction n using Nat.strongRecOn with
  | ind n ih =>
    rw [Text.ofNat, Nat.toDigits_eq_if (by decide)]
    by_cases hn : n < 10
    · obtain ⟨hd, hne⟩ := hdigit n hn
      rw [if_pos hn]
      exact ⟨.single hd, fun hpos h => hne hpos (Option.some.inj h)⟩
    · obtain ⟨hdigits, hhead⟩ := ih (n / 10) (by omega)
      obtain ⟨hd, -⟩ := hdigit (n % 10) (by omega)
      have hvalue : 10 * (n / 10) + n % 10 = n := Nat.div_add_mod n 10
      rw [if_neg hn, List.map_append, ← Text.ofNat]
      refine ⟨?_, fun _ => ?_⟩
      · rw [← hvalue]
        simpa [hvalue] using hdigits.concat hd
      · rw [List.head?_append_of_ne_nil _ hdigits.ne_nil]
        exact hhead (by omega)

/-- The number in a message can be read. -/
theorem isNumeral_ofInt (n : Int) : IsNumeral (Text.ofInt n) n := by
  have hmagnitude : ∀ m, IsMagnitude (Text.ofNat m) m := by
    intro m
    obtain ⟨hdigits, hhead⟩ := isDigits_ofNat m
    obtain ⟨b, t, hbytes⟩ := List.exists_cons_of_ne_nil hdigits.ne_nil
    rw [hbytes] at hdigits hhead ⊢
    refine .decimal hdigits fun hzero => ?_
    cases m with
    | zero =>
      cases hbytes
      rfl
    | succ m => exact absurd (congrArg some hzero) (hhead (Nat.succ_pos m))
  cases n with
  | ofNat m => exact .unsigned (hmagnitude m)
  | negSucc m => exact .minus (hmagnitude (m + 1))

end MojoLint.Command
