import MojoLint.Proofs.Text.Offsets
import MojoLint.Proofs.Token.Lossless

/-!
# What the code view of a line shows

The code view is put together from the columns of the tokens, and a column is a 32-bit word. On a
line that is too long for its columns the view falls behind: it copies gaps from bytes that it has
passed already. What lies between the byte that the view has reached and the one that it should have
reached is the `lag` of the lemmas below. Even then no byte of a comment is shown (`mem_codeOf`), and
no code is lost (`mem_codeOf_of_mem_code`).
-/

namespace MojoLint

theorem Text.mem_trimRight {t : Text} {b : UInt8} (hb : b ∈ t) (hspace : Byte.isSpace b = false) :
    b ∈ trimRight t := by
  obtain ⟨blank, heq, hblank⟩ := exists_trimRight_append t
  rw [heq] at hb
  rcases List.mem_append.1 hb with hb | hb
  · exact hb
  · rw [hblank b hb] at hspace
    cases hspace

theorem Text.mem_of_mem_trimRight {t : Text} {b : UInt8} (hb : b ∈ trimRight t) : b ∈ t :=
  (trimRight_sublist t).subset hb

namespace Token

/-! ## What is left out -/

/-- What a token adds to the code view is part of it. -/
theorem code_sublist (t : Token) : List.Sublist t.code t.text := by
  unfold code
  split
  · exact List.nil_sublist _
  · have hparts := t.parts_append
    conv => rhs; rw [← hparts]
    exact (List.sublist_append_left _ _).append (List.Sublist.refl _)
  · exact List.Sublist.refl _

theorem mem_text_of_mem_code {t : Token} {b : UInt8} (h : b ∈ t.code) : b ∈ t.text :=
  t.code_sublist.subset h

theorem Laid.codeFrom_sublist {pos : Nat} {line : Text} {ts : List Token} (h : Laid pos line ts)
    (hsize : pos + line.length < UInt32.size) : List.Sublist (codeFrom pos line ts) line := by
  induction h with
  | nil => exact List.Sublist.refl _
  | @cons pos line gap rest t ts bytes between column nonempty later ih =>
    rw [bytes, List.length_append, List.length_append] at hsize
    have hcolumn : t.column.toNat = pos + gap.length := by
      rw [column]
      exact Number.toNat_word (by omega)
    rw [bytes, codeFrom_cons hcolumn]
    split
    · rw [List.append_assoc]
      exact List.sublist_append_left _ _
    · exact ((List.Sublist.refl gap).append t.code_sublist).append (ih (by omega))

/-- The code view leaves bytes of the line out. -/
theorem codeOf_sublist {line : Text} (hsize : line.length < UInt32.size) :
    List.Sublist (codeOf line) line :=
  (Text.trimRight_sublist _).trans
    ((laid_ofLine line).codeFrom_sublist (by rwa [Nat.zero_add]))

/-! ## One token -/

section

variable {pos start : Nat} {gap rest : Text} {t : Token}

/-- A view that is behind copies no more bytes for a gap than the gap has. -/
theorem column_sub_le (hpos : pos % UInt32.size = start % UInt32.size)
    (hcolumn : t.column = (start + gap.length).toUInt32) :
    t.column.toNat - pos ≤ gap.length ∧
      t.column.toNat + t.text.length - pos ≤ gap.length + t.text.length := by
  have hmod : t.column.toNat = (start + gap.length) % UInt32.size := by
    rw [hcolumn]
    exact UInt32.toNat_ofNat
  rw [hmod]
  simp only [UInt32.size] at hpos ⊢
  omega

theorem codeFrom_lag (hpos : pos % UInt32.size = start % UInt32.size)
    (hcolumn : t.column = (start + gap.length).toUInt32) (lag : Text) (ts : List Token) :
    codeFrom pos (lag ++ (gap ++ t.text ++ rest)) (t :: ts) =
      if t.kind = .comment then (lag ++ gap).take (t.column.toNat - pos)
      else (lag ++ gap).take (t.column.toNat - pos) ++ t.code ++
        codeFrom (t.column.toNat + t.text.length)
          ((lag ++ (gap ++ t.text)).drop (t.column.toNat + t.text.length - pos) ++ rest) ts := by
  obtain ⟨hgap, hafter⟩ := column_sub_le (t := t) hpos hcolumn
  have htake : (lag ++ (gap ++ t.text ++ rest)).take (t.column.toNat - pos) =
      (lag ++ gap).take (t.column.toNat - pos) := by
    rw [List.append_assoc, ← List.append_assoc,
      List.take_append_of_le_length (by rw [List.length_append]; omega)]
  have hdrop : (lag ++ (gap ++ t.text ++ rest)).drop (t.column.toNat + t.text.length - pos) =
      (lag ++ (gap ++ t.text)).drop (t.column.toNat + t.text.length - pos) ++ rest := by
    rw [← List.append_assoc, List.drop_append_of_le_length]
    rw [List.length_append, List.length_append]
    omega
  rw [codeFrom]
  simp only [htake, hdrop]

end

/-! ## What is shown -/

/-- The view shows gaps and what stands in tokens other than comments. -/
theorem Laid.of_mem_codeFrom {start : Nat} {line : Text} {ts : List Token}
    (h : Laid start line ts) {pos : Nat} (hpos : pos % UInt32.size = start % UInt32.size)
    (lag : Text) {b : UInt8} (hb : b ∈ codeFrom pos (lag ++ line) ts) :
    b ∈ lag ∨ Byte.isGap b = true ∨ ∃ t ∈ ts, t.kind ≠ .comment ∧ b ∈ t.text := by
  induction h generalizing pos lag with
  | nil gap =>
    rcases List.mem_append.1 hb with hb | hb
    · exact .inl hb
    · exact .inr (.inl (gap b hb))
  | @cons start line gap rest t ts bytes between column nonempty later ih =>
    have hshown : ∀ n, b ∈ (lag ++ gap).take n → b ∈ lag ∨ Byte.isGap b = true := by
      intro n hb
      exact (List.mem_append.1 (List.mem_of_mem_take hb)).imp_right (between b)
    rw [bytes, codeFrom_lag hpos column] at hb
    split at hb
    · exact (hshown _ hb).imp_right .inl
    · rename_i hcomment
      rcases List.mem_append.1 hb with hb | hb
      · rcases List.mem_append.1 hb with hb | hb
        · exact (hshown _ hb).imp_right .inl
        · exact .inr (.inr ⟨t, List.mem_cons_self, hcomment, mem_text_of_mem_code hb⟩)
      · have hnext : (t.column.toNat + t.text.length) % UInt32.size =
            (start + gap.length + t.text.length) % UInt32.size := by
          have hmod : t.column.toNat = (start + gap.length) % UInt32.size := by
            rw [column]
            exact UInt32.toNat_ofNat
          rw [hmod, Nat.mod_add_mod]
        rcases ih hnext _ hb with hb | hb | ⟨u, hu, hkind, hb⟩
        · rcases List.mem_append.1 (List.mem_of_mem_drop hb) with hb | hb
          · exact .inl hb
          · rcases List.mem_append.1 hb with hb | hb
            · exact .inr (.inl (between b hb))
            · exact .inr (.inr ⟨t, List.mem_cons_self, hcomment, hb⟩)
        · exact .inr (.inl hb)
        · exact .inr (.inr ⟨u, List.mem_cons_of_mem t hu, hkind, hb⟩)

/-- **Nothing but code is shown.** -/
theorem mem_codeOf {line : Text} {b : UInt8} (hb : b ∈ codeOf line) :
    Byte.isGap b = true ∨ ∃ t ∈ ofLine line, t.kind ≠ .comment ∧ b ∈ t.text := by
  have hview := Text.mem_of_mem_trimRight hb
  rcases (laid_ofLine line).of_mem_codeFrom rfl [] hview with hnil | hshown
  · cases hnil
  · exact hshown

/-- **No code is lost.** -/
theorem mem_codeOf_of_mem_code {line : Text} {t : Token} {b : UInt8} (ht : t ∈ ofLine line)
    (hcomment : t.kind ≠ .comment) (hb : b ∈ t.code) (hspace : Byte.isSpace b = false) :
    b ∈ codeOf line := by
  have hshown : ∀ {ts : List Token}, (ts.Pairwise fun a _ => ¬ a.endsLine) → t ∈ ts →
      ∀ pos rest, b ∈ codeFrom pos rest ts := by
    intro ts hts ht pos rest
    induction hts generalizing pos rest with
    | nil => cases ht
    | @cons u ts hu _ ih =>
      unfold codeFrom
      rcases List.mem_cons.1 ht with rfl | ht
      · rw [if_neg hcomment]
        exact List.mem_append_left _ (List.mem_append_right _ hb)
      · rw [if_neg fun hkind => hu t ht (.inl hkind)]
        exact List.mem_append_right _ (ih ht _ _)
  exact Text.mem_trimRight (hshown (ofLine_pairwise line) ht 0 line) hspace

/-- What a view that has fallen behind copies for the second gap begins within the first one. -/
theorem head_lag {gap gap' text : Text} (hgap : ∀ b ∈ gap, Byte.isGap b = true)
    (hgap' : ∀ b ∈ gap', Byte.isGap b = true) (hlength : text.length < UInt32.size) :
    ∀ b ∈ ((gap ++ text).drop (gap.length % UInt32.size + text.length) ++ gap').head?,
      Byte.isGap b = true := by
  rcases Nat.lt_or_ge gap.length UInt32.size with hshort | hlong
  · rw [Nat.mod_eq_of_lt hshort, List.drop_of_length_le (by rw [List.length_append])]
    exact fun b hb => hgap' b (List.mem_of_head? hb)
  · have hwithin : gap.length % UInt32.size + text.length < gap.length := by
      simp only [UInt32.size] at hlong hlength ⊢
      omega
    rw [List.drop_append_of_le_length (Nat.le_of_lt hwithin), List.append_assoc,
      List.drop_eq_getElem_cons hwithin]
    rintro b ⟨⟩
    exact hgap _ (List.getElem_mem _)

/-- A code view starts with the first name of its line. -/
theorem exists_codeOf_name {line : Text} {s v : Token} {ts : List Token} {c : UInt8}
    (h : ofLine line = s :: v :: ts) (hs : s.kind = .ident) (hlength : s.text.length < UInt32.size)
    (hv : v.kind = .punct) (hc : v.text = [c]) (hspace : Byte.isSpace c = false) :
    ∃ gap between w, codeOf line = gap ++ (s.text ++ (between ++ c :: w)) ∧
      (∀ b ∈ gap, Byte.isGap b = true) ∧ ∀ b ∈ between.head?, Byte.isGap b = true := by
  have hlaid := laid_ofLine line
  rw [h] at hlaid
  cases hlaid with
  | @cons _ _ gap rest _ _ bytes hgap column nonempty later =>
    cases later with
    | @cons _ _ gap' rest' _ _ bytes' hgap' column' nonempty' later' =>
      have hmod : s.column.toNat = gap.length % UInt32.size := by
        rw [column, Nat.zero_add]
        exact UInt32.toNat_ofNat
      have hnext : (s.column.toNat + s.text.length) % UInt32.size =
          (0 + gap.length + s.text.length) % UInt32.size := by
        rw [hmod, Nat.mod_add_mod, Nat.zero_add]
      have hscode : s.code = s.text := by rw [code, hs]
      have hvcode : v.code = [c] := by rw [code, hv, hc]
      have hview := @codeFrom_lag 0 0 gap rest s rfl column [] (v :: ts)
      rw [← bytes, List.nil_append, List.nil_append, if_neg (by simp [hs]), bytes',
        codeFrom_lag hnext column', if_neg (by simp [hv]), hscode, hvcode, Nat.sub_zero,
        Nat.sub_zero, hmod] at hview
      have hsplit : ∀ between w : Text, codeFrom 0 line (s :: v :: ts) =
          gap.take (gap.length % UInt32.size) ++ s.text ++ (between ++ [c] ++ w) →
          codeOf line = gap.take (gap.length % UInt32.size) ++
            (s.text ++ (between ++ c :: Text.trimRight w)) := by
        intro between w hw
        rw [codeOf, codeView, h, hw, List.append_assoc between, List.singleton_append,
          ← List.append_assoc, Text.trimRight_append hspace, List.append_assoc, List.append_assoc]
      refine ⟨_, _, _, hsplit _ _ hview, fun b hb => hgap b (List.mem_of_mem_take hb), ?_⟩
      intro b hb
      rw [List.nil_append, List.head?_take] at hb
      split at hb
      · cases hb
      · exact head_lag hgap hgap' hlength b hb

end Token

end MojoLint
