import MojoLint.Proofs.Source.Rows
import MojoLint.Rule.Structs

/-!
# What is reported about traits

A finding about the traits of a struct stems from a trivial lifecycle method: it is reported on the
line of that method, or on the line of the struct when both methods are trivial and neither trait is
declared. Its edits insert traits, and delete trivial methods.
-/

namespace MojoLint

/-- The method of a struct for an operation. -/
def Lifecycle.methodFor (l : Lifecycle) : Lifecycle.Operation → Option Lifecycle.Method
  | .copy => l.copy
  | .move => l.move

theorem Lifecycle.methodFor_ofBlock (lines : List Text) (struct : Block) (op : Operation) :
    (ofBlock lines struct).methodFor op = method? lines struct op := by
  cases op <;> rfl

theorem Lifecycle.trivialCopy_iff {l : Lifecycle} :
    l.trivialCopy = true ↔ ∃ offset, l.methodFor .copy = some ⟨offset, true⟩ := by
  obtain ⟨_ | ⟨offset, trivial⟩, move⟩ := l <;> simp [trivialCopy, methodFor]

theorem Lifecycle.trivialMove_iff {l : Lifecycle} :
    l.trivialMove = true ↔ ∃ offset, l.methodFor .move = some ⟨offset, true⟩ := by
  obtain ⟨copy, _ | ⟨offset, trivial⟩⟩ := l <;> simp [trivialMove, methodFor]

namespace Traits

/-- The rules about traits. -/
def ids : List Text :=
  ["TRAIT_REDUNDANT_COPYINIT", "TRAIT_REDUNDANT_MOVEINIT", "TRAIT_ADD_COPYABLE_MOVABLE",
   "TRAIT_ADD_COPYABLE", "TRAIT_ADD_MOVABLE"]

/-- Both methods are trivial and neither trait is declared. -/
def addsBoth (struct : Struct) (l : Lifecycle) : Bool :=
  l.trivialCopy && !struct.isCopyable && (l.trivialMove && !struct.isMovable)

theorem insertion_length (source : Source) (struct : Struct) (traits : Text) :
    (insertion source struct traits).length = 0 := by
  unfold insertion
  simp only
  split <;> rfl

/-- The traits that can be declared in place of a method, or of both. -/
def declarable : List Text := ["Copyable, Movable", "Copyable", "Movable"]

/-- The edit declares traits for the struct. -/
def Inserts (source : Source) (struct : Struct) (e : Edit) : Prop :=
  ∃ traits ∈ declarable, e = insertion source struct traits

theorem Inserts.length_eq {source : Source} {struct : Struct} {e : Edit}
    (h : Inserts source struct e) : e.length = 0 := by
  obtain ⟨traits, -, rfl⟩ := h
  exact insertion_length source struct traits

section

variable {source : Source} {struct : Struct} {l : Lifecycle}

theorem methodLine_copy {offset : Nat} (h : l.methodFor .copy = some ⟨offset, true⟩) :
    methodLine struct l.copy = struct.header + offset := by
  rw [show l.copy = some ⟨offset, true⟩ from h]
  rfl

theorem methodLine_move {offset : Nat} (h : l.methodFor .move = some ⟨offset, true⟩) :
    methodLine struct l.move = struct.header + offset := by
  rw [show l.move = some ⟨offset, true⟩ from h]
  rfl

/-- The finding is reported on the line of a trivial method, and not about both at once. -/
def OnMethod (struct : Struct) (l : Lifecycle) (f : Finding) : Prop :=
  ∃ op offset, l.methodFor op = some ⟨offset, true⟩ ∧ addsBoth struct l = false ∧
    f.IsOn (struct.header + offset)

theorem onMethod_copy {f : Finding} (h : l.trivialCopy = true) (hb : addsBoth struct l = false)
    (hf : f.IsOn (methodLine struct l.copy)) : OnMethod struct l f := by
  obtain ⟨offset, hm⟩ := Lifecycle.trivialCopy_iff.1 h
  exact ⟨.copy, offset, hm, hb, methodLine_copy hm ▸ hf⟩

theorem onMethod_move {f : Finding} (h : l.trivialMove = true) (hb : addsBoth struct l = false)
    (hf : f.IsOn (methodLine struct l.move)) : OnMethod struct l f := by
  obtain ⟨offset, hm⟩ := Lifecycle.trivialMove_iff.1 h
  exact ⟨.move, offset, hm, hb, methodLine_move hm ▸ hf⟩

/-- The edit deletes a trivial method of the struct. -/
def Deletes (source : Source) (struct : Struct) (l : Lifecycle) (e : Edit) : Prop :=
  ∃ op offset, l.methodFor op = some ⟨offset, true⟩ ∧
    e = removal source (struct.header + offset) op.method

theorem deletes_copy (h : l.trivialCopy = true) :
    Deletes source struct l (removal source (methodLine struct l.copy) "__copyinit__") := by
  obtain ⟨offset, hm⟩ := Lifecycle.trivialCopy_iff.1 h
  exact ⟨.copy, offset, hm, by rw [methodLine_copy hm]; rfl⟩

theorem deletes_move (h : l.trivialMove = true) :
    Deletes source struct l (removal source (methodLine struct l.move) "__moveinit__") := by
  obtain ⟨offset, hm⟩ := Lifecycle.trivialMove_iff.1 h
  exact ⟨.move, offset, hm, by rw [methodLine_move hm]; rfl⟩

/-- A finding about traits is reported on the line of a trivial method or, when it is about both
traits at once, on the struct. Its edits insert traits or delete trivial methods. -/
theorem findings_cases {f : Finding} (h : f ∈ findings source struct l) :
    (OnMethod struct l f ∨ f.IsOn struct.header) ∧ (f.id ∈ ids ∧ f.severity = .suggestion) ∧
      ∀ e ∈ f.edits, Inserts source struct e ∨ Deletes source struct l e := by
  have hinsert : ∀ {traits}, traits ∈ declarable →
      Inserts source struct (insertion source struct traits) := fun h => ⟨_, h, rfl⟩
  have hid : ∀ {id}, id ∈ ids → ∀ line description suggestion edits,
      let f := finding source id line description suggestion edits
      f.id ∈ ids ∧ f.severity = .suggestion := fun h _ _ _ _ => ⟨h, rfl⟩
  unfold findings recommend at h
  simp only [List.mem_append] at h
  rcases h with (h | h) | h
  · split at h
    · rename_i hc
      simp only [Bool.and_eq_true, Bool.not_eq_true'] at hc
      obtain rfl := List.mem_singleton.1 h
      refine ⟨.inl (onMethod_copy hc.1 (by rw [addsBoth, hc.2]; rfl) rfl),
        hid (by decide) _ _ _ _, ?_⟩
      intro e he
      obtain rfl := List.mem_singleton.1 he
      exact .inr (deletes_copy hc.1)
    · cases h
  · split at h
    · rename_i hc
      simp only [Bool.and_eq_true, Bool.not_eq_true'] at hc
      obtain rfl := List.mem_singleton.1 h
      refine ⟨.inl (onMethod_move hc.1 (by rw [addsBoth, hc.2, Bool.and_false]) rfl),
        hid (by decide) _ _ _ _, ?_⟩
      intro e he
      obtain rfl := List.mem_singleton.1 he
      exact .inr (deletes_move hc.1)
    · cases h
  · split at h
    · rename_i hboth
      simp only [Bool.and_eq_true] at hboth
      obtain rfl := List.mem_singleton.1 h
      refine ⟨.inr rfl, hid (by decide) _ _ _ _, ?_⟩
      intro e he
      simp only [finding, Finding.onLine, List.mem_cons, List.not_mem_nil, or_false] at he
      rcases he with rfl | rfl | rfl
      · exact .inl (hinsert (by decide))
      · exact .inr (deletes_copy hboth.1.1)
      · exact .inr (deletes_move hboth.2.1)
    · rename_i hboth
      have hb : addsBoth struct l = false := Bool.eq_false_iff.2 hboth
      split at h
      · rename_i hadd
        simp only [Bool.and_eq_true] at hadd
        obtain rfl := List.mem_singleton.1 h
        refine ⟨.inl (onMethod_copy hadd.1 hb rfl), hid (by decide) _ _ _ _, ?_⟩
        intro e he
        simp only [finding, Finding.onLine, List.mem_cons, List.not_mem_nil, or_false] at he
        rcases he with rfl | rfl
        · exact .inl (hinsert (by decide))
        · exact .inr (deletes_copy hadd.1)
      · split at h
        · rename_i hadd
          simp only [Bool.and_eq_true] at hadd
          obtain rfl := List.mem_singleton.1 h
          refine ⟨.inl (onMethod_move hadd.1 hb rfl), hid (by decide) _ _ _ _, ?_⟩
          intro e he
          simp only [finding, Finding.onLine, List.mem_cons, List.not_mem_nil, or_false] at he
          rcases he with rfl | rfl
          · exact .inl (hinsert (by decide))
          · exact .inr (deletes_move hadd.1)
        · cases h

/-- Every trivial method is reported on its own line, unless both are reported on the struct. -/
theorem exists_finding_of_trivial (source : Source) {op : Lifecycle.Operation} {offset : Nat}
    (hm : l.methodFor op = some ⟨offset, true⟩) (hb : addsBoth struct l = false) :
    ∃ f ∈ findings source struct l, f.IsOn (struct.header + offset) := by
  unfold findings recommend
  simp only [List.mem_append]
  unfold addsBoth at hb
  cases op with
  | copy =>
    have ht : l.trivialCopy = true := Lifecycle.trivialCopy_iff.2 ⟨offset, hm⟩
    rw [methodLine_copy hm, hb, ht, Bool.true_and]
    cases struct.isCopyable with
    | true => exact ⟨_, .inl (.inl (List.mem_singleton.2 rfl)), rfl⟩
    | false => exact ⟨_, .inr (List.mem_singleton.2 rfl), rfl⟩
  | move =>
    have ht : l.trivialMove = true := Lifecycle.trivialMove_iff.2 ⟨offset, hm⟩
    rw [methodLine_move hm, hb, ht, Bool.true_and]
    cases hdecl : struct.isMovable with
    | true => exact ⟨_, .inl (.inr (List.mem_singleton.2 rfl)), rfl⟩
    | false =>
      rw [ht, hdecl] at hb
      rw [Bool.and_eq_false_iff.1 hb |>.resolve_right (by decide)]
      exact ⟨_, .inr (List.mem_singleton.2 rfl), rfl⟩

end

end Traits

/-! ## The struct rules -/

theorem Struct.header_of_at? {lines : List Text} {i : Nat} {struct : Struct}
    (h : at? lines i = some struct) : struct.header = i := by
  unfold at? at h
  split at h
  · split at h
    · cases h
      rfl
    · cases h
  · cases h

namespace Rule.Structs

/-- A struct with a body starts on line `i`, where the struct rules look for one. -/
def Declared (s : Source) (i : Nat) (struct : Struct) (body : Block) : Prop :=
  ∃ row, (row, i) ∈ s.visible ∧ isValueDecorator row.codeTokens = false ∧ row.closed = 0 ∧
    Struct.at? s.lines i = some struct ∧ Block.at? s.lines i = some body ∧ body.isEmpty = false

theorem Declared.header_eq {s : Source} {i : Nat} {struct : Struct} {body : Block}
    (h : Declared s i struct body) : struct.header = i := by
  obtain ⟨row, -, -, -, hstruct, -⟩ := h
  exact Struct.header_of_at? hstruct

variable {s : Source} {f : Finding}

theorem findings_cases (h : f ∈ findings s) :
    (s.Shows f ∧ f.edits = []) ∨ ∃ i struct body, Declared s i struct body ∧
      f ∈ Traits.findings s struct (Lifecycle.ofBlock s.lines body) := by
  obtain ⟨⟨row, i⟩, hrow, hf⟩ := List.mem_flatMap.1 h
  unfold lineFindings at hf
  simp only at hf
  split at hf
  · obtain rfl := List.mem_singleton.1 hf
    exact .inl ⟨⟨i, row, hrow, rfl⟩, rfl⟩
  · rename_i hvalue
    split at hf
    · cases hf
    · rename_i hclosed
      split at hf
      · rename_i struct hstruct
        obtain rfl := Struct.header_of_at? hstruct
        rcases List.mem_append.1 hf with hf | hf
        · split at hf
          · cases hf
          · obtain rfl := List.mem_singleton.1 hf
            exact .inl ⟨⟨struct.header, row, hrow, rfl⟩, rfl⟩
        · unfold traitFindings at hf
          split at hf
          · rename_i body hbody
            split at hf
            · cases hf
            · rename_i hempty
              exact .inr ⟨struct.header, struct, body,
                ⟨row, hrow, Bool.eq_false_iff.2 hvalue, Decidable.not_not.1 hclosed, hstruct, hbody,
                  Bool.eq_false_iff.2 hempty⟩, hf⟩
          · cases hf
      · cases hf

theorem mem_findings_of_declared {i : Nat} {struct : Struct} {body : Block}
    (hd : Declared s i struct body)
    (hf : f ∈ Traits.findings s struct (Lifecycle.ofBlock s.lines body)) : f ∈ findings s := by
  have hheader := hd.header_eq
  obtain ⟨row, hrow, hvalue, hclosed, hstruct, hbody, hempty⟩ := hd
  refine List.mem_flatMap.2 ⟨(row, i), hrow, ?_⟩
  simp only [lineFindings, hvalue, hclosed, hstruct]
  refine List.mem_append_right _ ?_
  simp only [traitFindings, hheader, hbody, hempty]
  exact hf

/-- A lifecycle method of a struct stands in its body. -/
theorem of_method? {lines : List Text} {i : Nat} {body : Block} {op : Lifecycle.Operation}
    {m : Lifecycle.Method} (hbody : Block.at? lines i = some body)
    (hm : Lifecycle.method? lines body op = some m) :
    ∃ line, (i + m.offset, line) ∈ body.codeLines lines ∧ Lifecycle.declares op line = true ∧
      m.trivial = (Block.at? lines (i + m.offset)).any fun block =>
        Lifecycle.isTrivial lines block op (Lifecycle.fields lines body) := by
  obtain ⟨⟨k, line⟩, hfind, rfl⟩ := Option.map_eq_some_iff.1 hm
  obtain ⟨rfl, hhead, hfirst, -⟩ := Block.at?_spec hbody
  have hmem := List.mem_of_find?_eq_some hfind
  have hk : body.header + (k - body.header) = k := by
    have := (Block.mem_codeLines_iff.1 hmem).1
    have := (Block.headerEnd?_spec hhead).1
    omega
  simp only [hk]
  exact ⟨line, hmem, by simpa using List.find?_some hfind, trivial⟩

end Rule.Structs

end MojoLint
