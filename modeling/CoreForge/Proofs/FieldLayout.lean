import Mathlib
import CoreForge.Proofs.Scanning
import CoreForge.Proofs.Words
import CoreForge.Registers.Issue
/-!
# The layout of fields

A register reports the fields that leave it, and among the fields by offset those that start
inside an earlier one. The scan has only one field in mind, the first of those that reach
furthest, and that one decides about all before it: `FlatRegister.fieldIssues_exact`.
-/

namespace CoreForge

open CoreForge.Number

namespace FlatField

/-- The field has the bit of its register. -/
def Covers (f : FlatField) (bit : Nat) : Prop := f.offset.toNat ≤ bit ∧ bit < f.offset.toNat + f.width.toNat

/-- Two fields have a bit in common. -/
def Share (a b : FlatField) : Prop := ∃ bit, a.Covers bit ∧ b.Covers bit

theorem Share.symm {a b : FlatField} (h : a.Share b) : b.Share a := by
  obtain ⟨bit, ha, hb⟩ := h
  exact ⟨bit, hb, ha⟩

theorem share_iff {a b : FlatField} (hle : a.offset ≤ b.offset) (hpos : 0 < b.width) :
    a.Share b ↔ b.offset.toNat < a.stop := by
  rw [UInt32.le_iff_toNat_le] at hle
  have hwidth : 0 < b.width.toNat := UInt32.lt_iff_toNat_lt.1 hpos
  constructor
  · rintro ⟨bit, ⟨-, ha⟩, hb, -⟩
    exact Nat.lt_of_le_of_lt hb ha
  · intro hlt
    refine ⟨b.offset.toNat, ⟨hle, hlt⟩, Nat.le_refl _, ?_⟩
    omega

end FlatField

namespace FlatRegister

/-! ## What the scan says -/

/-- The issue of a field with the one in mind. -/
def overlapIssue? (r : FlatRegister) : Option FlatField → FlatField → Option Issue
  | none, _ => none
  | some e, f => if f.offset.toNat < e.stop then some (.fieldOverlap r e f) else none

/-- What is said about each of some fields. -/
def fieldVerdicts (r : FlatRegister) (fs : List FlatField) : List (Option Issue) :=
  scan r.overlapIssue? (keepLarger FlatField.stop) none fs

theorem furtherField_eq (mind : Option FlatField) (f : FlatField) :
    furtherField mind f = keepLarger FlatField.stop mind f := by
  cases mind <;> rfl

theorem overlapIssues_eq (r : FlatRegister) (mind : Option FlatField) (fs : List FlatField) :
    r.overlapIssues mind fs = (scan r.overlapIssue? (keepLarger FlatField.stop) mind fs).filterMap id := by
  induction fs generalizing mind with
  | nil => rfl
  | cons f fs ih =>
    have hissue : r.overlapIssues mind (f :: fs) =
        (r.overlapIssue? mind f).toList ++ r.overlapIssues (some (furtherField mind f)) fs := by
      cases mind with
      | none => rfl
      | some e =>
        unfold overlapIssue?
        simp only [overlapIssues]
        split <;> rfl
    rw [hissue, scan, ih, furtherField_eq]
    cases r.overlapIssue? mind f <;> rfl

theorem fieldIssues_eq (r : FlatRegister) :
    r.fieldIssues = r.boundsIssues ++ (r.fieldVerdicts r.sortedFields).filterMap id := by
  rw [fieldIssues, overlapIssues_eq, fieldVerdicts]

theorem sortedBy_sortedFields (r : FlatRegister) : SortedBy (fun f => f.offset.toUInt64) r.fields r.sortedFields := by
  have hle : (fun a b : FlatField => decide (a.offset ≤ b.offset)) =
      fun a b => decide (a.offset.toUInt64 ≤ b.offset.toUInt64) := by
    funext a b
    rw [decide_eq_decide, UInt32.le_iff_toNat_le, UInt64.le_iff_toNat_le, UInt32.toNat_toUInt64, UInt32.toNat_toUInt64]
  unfold sortedFields
  rw [hle]
  exact sortedBy_mergeSort _ r.fields

theorem ascending_sortedFields (r : FlatRegister) : r.sortedFields.Pairwise fun a b => a.offset ≤ b.offset := by
  apply r.sortedBy_sortedFields.ascending.imp
  intro a b h
  rwa [UInt64.le_iff_toNat_le, UInt32.toNat_toUInt64, UInt32.toNat_toUInt64, ← UInt32.le_iff_toNat_le] at h

/-- The right verdict on a field: there is an issue exactly when it starts inside an earlier
field, and the issue names one of those that reach furthest. -/
structure FieldJudged (r : FlatRegister) (earlier : List FlatField) (f : FlatField) (v : Option Issue) : Prop where
  reported : v.isSome ↔ ∃ e ∈ earlier, f.offset.toNat < e.offset.toNat + e.width.toNat
  named : ∀ i ∈ v, ∃ e ∈ earlier, i = .fieldOverlap r e f ∧
    ∀ x ∈ earlier, x.offset.toNat + x.width.toNat ≤ e.offset.toNat + e.width.toNat

theorem fieldJudged_overlapIssue? (r : FlatRegister) {earlier : List FlatField} {mind : Option FlatField}
    (h : InMind FlatField.stop earlier mind) (f : FlatField) : r.FieldJudged earlier f (r.overlapIssue? mind f) := by
  cases mind with
  | none =>
    have hnil : earlier = [] := h
    constructor <;> simp [hnil, overlapIssue?]
  | some e =>
    have hmem := FirstLargest.mem h
    have hmax := FirstLargest.key_le h
    rw [overlapIssue?]
    by_cases hlt : f.offset.toNat < e.stop
    · rw [if_pos hlt]
      constructor
      · simp only [Option.isSome_some, true_iff]
        exact ⟨e, hmem, hlt⟩
      · intro i hi
        rw [Option.mem_some_iff] at hi
        exact ⟨e, hmem, hi.symm, hmax⟩
    · rw [if_neg hlt]
      constructor
      · simp only [Option.isSome_none, Bool.false_eq_true, false_iff, not_exists, not_and]
        intro x hx hinside
        exact hlt (Nat.lt_of_lt_of_le hinside (hmax x hx))
      · intro i hi
        cases hi

theorem fieldJudged_fieldVerdicts (r : FlatRegister) {fs : List FlatField} {k : Nat} {f : FlatField} {v : Option Issue}
    (hf : fs[k]? = some f) (hv : (r.fieldVerdicts fs)[k]? = some v) : r.FieldJudged (fs.take k) f v := by
  have hnone : InMind FlatField.stop [] none := rfl
  obtain ⟨mind, hmind, hsame⟩ : ∃ mind, InMind FlatField.stop ([] ++ fs.take k) mind ∧
      (r.fieldVerdicts fs)[k]? = fs[k]?.map (r.overlapIssue? mind) := getElem?_scan InMind.step hnone fs k
  rw [hf, hv, Option.map_some, Option.some.injEq] at hsame
  rw [hsame]
  exact fieldJudged_overlapIssue? r hmind f

/-! ## When nothing is said -/

theorem boundsIssues_eq_nil_iff (r : FlatRegister) : r.boundsIssues = [] ↔ ∀ f ∈ r.fields, f.stop ≤ r.width.toNat := by
  simp [boundsIssues]

theorem fieldVerdicts_eq_none_iff (r : FlatRegister) (fs : List FlatField) :
    (∀ v ∈ r.fieldVerdicts fs, v = none) ↔ fs.Pairwise fun a b => a.stop ≤ b.offset.toNat := by
  rw [pairwise_iff_take]
  constructor
  · intro h k f hf e he
    obtain ⟨hk, -⟩ := List.getElem?_eq_some_iff.1 hf
    have hlength : (r.fieldVerdicts fs).length = fs.length := length_scan none fs
    have hv := List.getElem?_eq_getElem (l := r.fieldVerdicts fs) (i := k) (by omega)
    have hjudged := r.fieldJudged_fieldVerdicts hf hv
    have hnone := h _ (List.mem_of_getElem? hv)
    by_contra hlt
    have hsome := hjudged.reported.2 ⟨e, he, Nat.lt_of_not_le hlt⟩
    rw [hnone] at hsome
    cases hsome
  · intro h v hv
    obtain ⟨k, hk, rfl⟩ := List.mem_iff_getElem.1 hv
    have hlength : (r.fieldVerdicts fs).length = fs.length := length_scan none fs
    have hf := List.getElem?_eq_getElem (l := fs) (i := k) (by omega)
    have hjudged := r.fieldJudged_fieldVerdicts hf (List.getElem?_eq_getElem hk)
    rw [← Option.not_isSome_iff_eq_none, hjudged.reported]
    rintro ⟨e, he, hlt⟩
    exact absurd (h k _ hf e he) (Nat.not_le_of_lt hlt)

theorem disjoint_sortedFields_iff {r : FlatRegister} (hpos : ∀ f ∈ r.fields, 0 < f.width) :
    (r.sortedFields.Pairwise fun a b => a.stop ≤ b.offset.toNat) ↔ r.fields.Pairwise fun a b => ¬ a.Share b := by
  have hperm : r.sortedFields.Perm r.fields := r.sortedBy_sortedFields.perm
  have hshare : ∀ a b, a ∈ r.sortedFields → b ∈ r.sortedFields → a.offset ≤ b.offset →
      (a.stop ≤ b.offset.toNat ↔ ¬ a.Share b) := by
    intro a b _ hb hle
    rw [FlatField.share_iff hle (hpos b (hperm.mem_iff.1 hb)), Nat.not_lt]
  rw [← hperm.pairwise_iff fun h hshare => h hshare.symm]
  constructor
  · intro h
    apply (h.and r.ascending_sortedFields).imp_of_mem
    intro a b ha hb hab
    exact (hshare a b ha hb hab.2).1 hab.1
  · intro h
    apply (h.and r.ascending_sortedFields).imp_of_mem
    intro a b ha hb hab
    exact (hshare a b ha hb hab.2).2 hab.1

/-- The issues of fields are those of the fields that leave the register, and then, by offset, of
those that start inside an earlier field. Where every field has a bit, there are none exactly when
all fields lie inside the register and no two have a bit in common. -/
theorem fieldIssues_exact (r : FlatRegister) :
    (∃ (sorted : List FlatField) (verdicts : List (Option Issue)),
      SortedBy (fun f => f.offset.toUInt64) r.fields sorted ∧ verdicts.length = sorted.length ∧
      r.fieldIssues =
        (r.fields.filter fun f => r.width.toNat < f.offset.toNat + f.width.toNat).map (.fieldOutOfBounds r) ++
          verdicts.filterMap id ∧
      ∀ k f v, sorted[k]? = some f → verdicts[k]? = some v → r.FieldJudged (sorted.take k) f v) ∧
    ((∀ f ∈ r.fields, 0 < f.width) → (r.fieldIssues = [] ↔
      (r.fields.Pairwise fun a b => ¬ a.Share b) ∧ ∀ f ∈ r.fields, f.offset.toNat + f.width.toNat ≤ r.width.toNat)) := by
  constructor
  · refine ⟨r.sortedFields, r.fieldVerdicts r.sortedFields, r.sortedBy_sortedFields, length_scan none _,
      r.fieldIssues_eq, ?_⟩
    intro k f v hf hv
    exact r.fieldJudged_fieldVerdicts hf hv
  · intro hpos
    have hverdicts : (r.fieldVerdicts r.sortedFields).filterMap id = [] ↔
        ∀ v ∈ r.fieldVerdicts r.sortedFields, v = none := List.filterMap_eq_nil_iff
    rw [fieldIssues_eq, List.append_eq_nil_iff, boundsIssues_eq_nil_iff, hverdicts, fieldVerdicts_eq_none_iff,
      disjoint_sortedFields_iff hpos, and_comm]
    rfl

/-- Fields that are declared out of order and fill their register. -/
theorem fieldIssues_exact_packed :
    let field (name : String) (offset width : UInt32) : FlatField := ⟨name, offset, width, "read-write", 0, ""⟩
    let r : FlatRegister :=
      ⟨"status", 0, 8, "block", "read-write", "", [field "code" 3 5, field "ready" 0 1, field "mode" 1 2]⟩
    (∀ f ∈ r.fields, 0 < f.width) ∧ r.fieldIssues = [] ∧ r.fields.Pairwise fun a b => ¬ a.Share b := by
  intro field r
  have hpos : ∀ f ∈ r.fields, 0 < f.width := by decide
  have hnone : r.fieldIssues = [] := by cbv
  exact ⟨hpos, hnone, (((fieldIssues_exact r).2 hpos).1 hnone).1⟩

end FlatRegister

end CoreForge
