import CoreForge.Proofs.FieldLayout
/-!
# The value of a register after a reset

A register starts with the bits that its fields start with, each at the place of its field. A
bit is set exactly when a field that has it sets it, bits beyond the width of a field are lost,
and no field disturbs another where none overlap: `FlatRegister.resetValue_exact`.
-/

namespace CoreForge

open CoreForge.Number

namespace FlatField

/-- The field sets a bit of its register after a reset. -/
def Sets (f : FlatField) (bit : Nat) : Prop := f.Covers bit ∧ f.resetValue.toNat.testBit (bit - f.offset.toNat) = true

theorem not_share_of_stop_le {a b : FlatField} (h : a.stop ≤ b.offset.toNat) : ¬ a.Share b := by
  rintro ⟨bit, ⟨-, ha⟩, hb, -⟩
  unfold stop at h
  omega

end FlatField

namespace FlatRegister

/-! ## The bits of a field -/

theorem toNat_lowBits (width : UInt32) : (lowBits width).toNat = 2 ^ min width.toNat 64 - 1 := by
  unfold lowBits
  split
  · rename_i h
    have hwide : 64 ≤ width.toNat := UInt32.le_iff_toNat_le.1 h
    rw [toNat_clamp64, Nat.min_eq_right hwide]
    rfl
  · rename_i h
    have hlt : width.toNat < 64 := UInt32.lt_iff_toNat_lt.1 (UInt32.not_le.1 h)
    have hpow : 2 ^ width.toNat < 2 ^ 64 := Nat.pow_lt_pow_right (by decide) hlt
    have hbit : ((1 : UInt64) <<< width.toUInt64).toNat = 2 ^ width.toNat := by
      rw [UInt64.toNat_shiftLeft, UInt32.toNat_toUInt64, Nat.mod_eq_of_lt hlt, UInt64.toNat_one, Nat.one_shiftLeft,
        Nat.mod_eq_of_lt hpow]
    have hone : (1 : UInt64) ≤ 1 <<< width.toUInt64 := by
      rw [UInt64.le_iff_toNat_le, hbit]
      exact Nat.one_le_two_pow
    rw [UInt64.toNat_sub_of_le _ _ hone, hbit, Nat.min_eq_left (Nat.le_of_lt hlt)]
    rfl

/-- A field contributes the bits that it sets. -/
theorem testBit_fieldReset (f : FlatField) {k : Nat} (hk : k < 64) :
    (fieldReset f).toNat.testBit k = true ↔ f.Sets k := by
  unfold fieldReset FlatField.Sets FlatField.Covers
  split
  · rename_i h
    have hlt : f.offset.toNat < 64 := UInt32.lt_iff_toNat_lt.1 h
    rw [UInt64.toNat_shiftLeft, UInt32.toNat_toUInt64, Nat.mod_eq_of_lt hlt, UInt64.toNat_and, toNat_lowBits,
      Nat.testBit_mod_two_pow, Nat.testBit_shiftLeft, Nat.testBit_and, Nat.testBit_two_pow_sub_one]
    simp only [Bool.and_eq_true, decide_eq_true_eq]
    constructor
    · rintro ⟨-, hle, hset, hwidth⟩
      exact ⟨⟨hle, by omega⟩, hset⟩
    · rintro ⟨⟨hle, hstop⟩, hset⟩
      exact ⟨hk, hle, hset, by omega⟩
  · rename_i h
    have hge : 64 ≤ f.offset.toNat := UInt32.le_iff_toNat_le.1 (UInt32.not_lt.1 h)
    rw [UInt64.toNat_zero, Nat.zero_testBit]
    constructor
    · intro hfalse
      cases hfalse
    · rintro ⟨⟨hle, -⟩, -⟩
      omega

/-! ## The bits of a register -/

theorem testBit_foldl (fs : List FlatField) (value : UInt64) (k : Nat) :
    (fs.foldl (fun value f => value ||| fieldReset f) value).toNat.testBit k = true ↔
      value.toNat.testBit k = true ∨ ∃ f ∈ fs, (fieldReset f).toNat.testBit k = true := by
  induction fs generalizing value with
  | nil => simp
  | cons f fs ih =>
    rw [List.foldl_cons, ih, UInt64.toNat_or, Nat.testBit_or, Bool.or_eq_true, or_assoc]
    simp only [List.mem_cons, exists_eq_or_imp]

theorem testBit_resetValue (r : FlatRegister) {k : Nat} (hk : k < 64) :
    r.resetValue.toNat.testBit k = true ↔ ∃ f ∈ r.fields, f.Sets k := by
  rw [resetValue, testBit_foldl, UInt64.toNat_zero, Nat.zero_testBit]
  simp only [testBit_fieldReset _ hk, Bool.false_eq_true, false_or]

theorem testBit_beyond (w : UInt64) {k : Nat} (hk : 64 ≤ k) : w.toNat.testBit k = false :=
  Nat.testBit_lt_two_pow (Nat.lt_of_lt_of_le w.toNat_lt (Nat.pow_le_pow_right (by decide) hk))

/-- The order of the fields does not matter. -/
theorem resetValue_eq_of_perm {r r' : FlatRegister} (h : r'.fields.Perm r.fields) : r'.resetValue = r.resetValue := by
  apply UInt64.toNat.inj
  apply Nat.eq_of_testBit_eq
  intro k
  by_cases hk : k < 64
  · rw [Bool.eq_iff_iff, testBit_resetValue r' hk, testBit_resetValue r hk]
    simp only [h.mem_iff]
  · rw [testBit_beyond _ (Nat.le_of_not_lt hk), testBit_beyond _ (Nat.le_of_not_lt hk)]

/-! ## Registers without issues -/

section Silent
variable {r : FlatRegister} (hsilent : r.fieldIssues = [])
include hsilent

theorem stop_le_width : ∀ f ∈ r.fields, f.stop ≤ r.width.toNat := by
  rw [fieldIssues_eq, List.append_eq_nil_iff, boundsIssues_eq_nil_iff] at hsilent
  exact hsilent.1

/-- Two fields have no bit in common, fields without bits included. -/
theorem not_share_of_ne {f g : FlatField} (hf : f ∈ r.fields) (hg : g ∈ r.fields) (hne : f ≠ g) : ¬ f.Share g := by
  rw [fieldIssues_eq, List.append_eq_nil_iff, List.filterMap_eq_nil_iff] at hsilent
  have happart := (r.fieldVerdicts_eq_none_iff r.sortedFields).1 hsilent.2
  have hpairs : r.sortedFields.Pairwise fun a b => ¬ a.Share b := happart.imp FlatField.not_share_of_stop_le
  have hperm : r.sortedFields.Perm r.fields := r.sortedBy_sortedFields.perm
  have : Std.Symm fun a b : FlatField => ¬ a.Share b := ⟨fun _ _ h hshare => h hshare.symm⟩
  exact hpairs.forall (hperm.mem_iff.2 hf) (hperm.mem_iff.2 hg) hne

theorem testBit_outside {k : Nat} (hk : r.width.toNat ≤ k) : r.resetValue.toNat.testBit k = false := by
  by_cases hk64 : k < 64
  · rw [Bool.eq_false_iff, ne_eq, testBit_resetValue r hk64]
    rintro ⟨f, hf, ⟨-, hlt⟩, -⟩
    have hstop := stop_le_width hsilent f hf
    unfold FlatField.stop at hstop
    omega
  · exact testBit_beyond _ (Nat.le_of_not_lt hk64)

variable (hwidth : r.width.toNat ≤ 64)
include hwidth

/-- A bit of a field is set when that field sets it. -/
theorem testBit_of_covers {f : FlatField} {k : Nat} (hf : f ∈ r.fields) (hcovers : f.Covers k) :
    r.resetValue.toNat.testBit k = f.resetValue.toNat.testBit (k - f.offset.toNat) := by
  have hstop := stop_le_width hsilent f hf
  have hk : k < 64 := by
    have := hcovers.2
    unfold FlatField.stop at hstop
    omega
  rw [Bool.eq_iff_iff, testBit_resetValue r hk]
  constructor
  · rintro ⟨g, hg, hsets⟩
    by_cases hne : f = g
    · rw [hne]
      exact hsets.2
    · exact absurd ⟨k, hcovers, hsets.1⟩ (not_share_of_ne hsilent hf hg hne)
  · intro hset
    exact ⟨f, hf, hcovers, hset⟩

/-- Each field is found in the register with what fits its width. -/
theorem resetValue_div_mod {f : FlatField} (hf : f ∈ r.fields) :
    r.resetValue.toNat / 2 ^ f.offset.toNat % 2 ^ f.width.toNat = f.resetValue.toNat % 2 ^ f.width.toNat := by
  apply Nat.eq_of_testBit_eq
  intro j
  rw [Nat.testBit_mod_two_pow, Nat.testBit_mod_two_pow, Nat.testBit_div_two_pow]
  by_cases hj : j < f.width.toNat
  · have hcovers : f.Covers (j + f.offset.toNat) := ⟨by omega, by omega⟩
    rw [testBit_of_covers hsilent hwidth hf hcovers, Nat.add_sub_cancel]
  · simp only [hj, decide_false, Bool.false_and]

end Silent

/-- A bit of a register is set after a reset exactly when it lies in a field whose own value has
it set there, so the order of the fields does not matter. In a register of at most 64 bits
whose fields raise no issue every field reads back what of its value fits its width, and no bit
outside the register is set. -/
theorem resetValue_exact (r : FlatRegister) :
    (∀ k < 64, r.resetValue.toNat.testBit k = true ↔ ∃ f ∈ r.fields,
      f.offset.toNat ≤ k ∧ k < f.offset.toNat + f.width.toNat ∧
        f.resetValue.toNat.testBit (k - f.offset.toNat) = true) ∧
    (∀ r' : FlatRegister, r'.fields.Perm r.fields → r'.resetValue = r.resetValue) ∧
    (r.fieldIssues = [] → r.width.toNat ≤ 64 →
      (∀ f ∈ r.fields,
        r.resetValue.toNat / 2 ^ f.offset.toNat % 2 ^ f.width.toNat = f.resetValue.toNat % 2 ^ f.width.toNat) ∧
      ∀ k, r.width.toNat ≤ k → r.resetValue.toNat.testBit k = false) := by
  refine ⟨?_, ?_, ?_⟩
  · intro k hk
    rw [testBit_resetValue r hk]
    simp only [FlatField.Sets, FlatField.Covers, and_assoc]
  · intro r' hperm
    exact resetValue_eq_of_perm hperm
  · intro hsilent hwidth
    constructor
    · intro f hf
      exact resetValue_div_mod hsilent hwidth hf
    · intro k hk
      exact testBit_outside hsilent hk

/-- Values that are too wide for their fields, the last of which fills the register. -/
theorem resetValue_exact_truncated :
    let field (name : String) (offset width : UInt32) (value : UInt64) : FlatField :=
      ⟨name, offset, width, "read-write", value, ""⟩
    let mode := field "mode" 4 4 0x1ff
    let r : FlatRegister :=
      ⟨"ctrl", 0, 64, "block", "read-write", "", [field "rest" 8 56 (clamp64 max64), mode, field "en" 0 1 2]⟩
    r.fieldIssues = [] ∧ r.resetValue = 0xfffffffffffffff0 ∧
      r.resetValue.toNat / 2 ^ 4 % 2 ^ 4 = 0x1ff % 2 ^ 4 ∧ r.resetValue.toNat.testBit 64 = false ∧
      (r.resetValue.toNat.testBit 0 = true ↔ ∃ f ∈ r.fields, f.offset.toNat ≤ 0 ∧ 0 < f.offset.toNat + f.width.toNat ∧
        f.resetValue.toNat.testBit (0 - f.offset.toNat) = true) := by
  intro field mode r
  obtain ⟨hbits, -, hread⟩ := resetValue_exact r
  have hsilent : r.fieldIssues = [] := by cbv
  obtain ⟨hback, hbeyond⟩ := hread hsilent (by decide)
  exact ⟨hsilent, by decide, hback mode (by simp [r]), hbeyond 64 (by decide), hbits 0 (by decide)⟩

end FlatRegister

end CoreForge
