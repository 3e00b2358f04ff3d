import CoreForge.Proofs.Descents
import CoreForge.Registers.Issue
/-!
# The bytes of a declaration

How far the registers of a declaration lie from its start: within its size for one
repetition (`exists_turn`), and within its extent for all of them (`Descent.stop_le`). Both
are stated for exact sizes, which the sizes of the validator are as far as words go.
-/

namespace CoreForge

open CoreForge.Number

namespace RegisterDecl

/-! ## Exact sizes -/

/-- The number of steps from the first repetition to the last one. -/
def strides (r : RegisterDecl) : Nat := (r.count.getD 1).toNat - 1

mutual

/-- The bytes that all repetitions of a declaration cover, however many these are. -/
def exactExtent : RegisterDecl → Nat
  | ⟨_, _, _, _, _, count, stride, registers⟩ =>
    ((count.getD 1).toNat - 1) * (stride.getD 0).toNat +
      if registers.isEmpty then wordBytes.toNat else exactStop registers

/-- The bytes from the start of a group to the end of its furthest declaration, however
many these are. -/
def exactStop : List RegisterDecl → Nat
  | [] => 0
  | r :: rs => max (r.offset.toNat + exactExtent r) (exactStop rs)

end

/-- The bytes that one repetition of a declaration covers, however many these are. -/
def exactSize (r : RegisterDecl) : Nat := if r.isGroup then exactStop r.registers else wordBytes.toNat

theorem exactSize_leaf {r : RegisterDecl} (h : r.isGroup = false) : r.exactSize = 4 := by
  rw [exactSize, h]
  rfl

theorem exactSize_group {r : RegisterDecl} (h : r.isGroup = true) : r.exactSize = exactStop r.registers := if_pos h

theorem exactExtent_eq (r : RegisterDecl) :
    r.exactExtent = r.strides * (r.stride.getD 0).toNat + r.exactSize := by
  cases r with
  | mk name offset access description fields count stride registers =>
    rw [exactExtent]
    unfold strides exactSize isGroup
    cases registers <;> rfl

theorem le_exactStop {r : RegisterDecl} {rs : List RegisterDecl} (h : r ∈ rs) :
    r.offset.toNat + r.exactExtent ≤ exactStop rs := by
  induction rs with
  | nil => cases h
  | cons s rs ih =>
    rw [exactStop]
    rcases List.mem_cons.1 h with rfl | h
    · exact Nat.le_max_left _ _
    · exact Nat.le_trans (ih h) (Nat.le_max_right _ _)

mutual

theorem extent_eq_clamp64 : ∀ r : RegisterDecl, r.extent = clamp64 r.exactExtent
  | ⟨name, offset, access, description, fields, count, stride, registers⟩ => by
    rw [extent, exactExtent, mulSat_clamp64]
    cases registers with
    | nil => exact addSat_clamp64 _ wordBytes
    | cons r rs =>
      have hstop := furthestStop_eq_clamp64 (r :: rs)
      simp only [List.isEmpty_cons, Bool.false_eq_true, if_false]
      rw [hstop, addSat_clamp64_clamp64]

theorem furthestStop_eq_clamp64 : ∀ rs : List RegisterDecl, furthestStop rs = clamp64 (exactStop rs)
  | [] => rfl
  | r :: rs => by
    rw [furthestStop, exactStop, extent_eq_clamp64 r, furthestStop_eq_clamp64 rs, ← max_clamp64, Nat.add_comm,
      ← addSat_clamp64, addSat_comm]

end

theorem size_eq_clamp64 (r : RegisterDecl) : r.size = clamp64 r.exactSize := by
  cases hgroup : r.isGroup with
  | false =>
    rw [exactSize_leaf hgroup, size, hgroup]
    rfl
  | true => rw [exactSize_group hgroup, size, if_pos hgroup, furthestStop_eq_clamp64]

/-! ## Registers within their declaration -/

theorem index_le_strides {r : RegisterDecl} {index : Nat} (h : index < r.repetitions) : index ≤ r.strides := by
  unfold repetitions at h
  unfold strides
  split at h <;> omega

/-- Bytes that are within the size at some repetition are within the extent. -/
theorem within_extent {r : RegisterDecl} {index bytes : Nat} (hindex : index < r.repetitions)
    (hbytes : bytes ≤ r.exactSize) : index * (r.stride.getD 0).toNat + bytes ≤ r.exactExtent := by
  have hmul := Nat.mul_le_mul_right (r.stride.getD 0).toNat (index_le_strides hindex)
  rw [exactExtent_eq]
  omega

/-- A register stops within the furthest stop of the declarations it is found in. -/
theorem Descent.stop_le {rs : List RegisterDecl} {ts : List Turn} (h : Descent rs ts) :
    Turn.distanceAll ts + 4 ≤ exactStop rs := by
  induction h with
  | @leaf rs t hmem hindex hleaf =>
    have hstop := le_exactStop hmem
    have hextent := within_extent hindex (Nat.le_of_eq (exactSize_leaf hleaf).symm)
    rw [Turn.distanceAll_cons, Turn.distance, Turn.distanceAll, List.foldr_nil]
    omega
  | @group rs t ts hmem hindex hgroup _ ih =>
    rw [← exactSize_group hgroup] at ih
    have hstop := le_exactStop hmem
    have hextent := within_extent hindex ih
    rw [Turn.distanceAll_cons, Turn.distance]
    omega

theorem stop_le_exactStop {rs : List RegisterDecl} {o : Occurrence} (h : o ∈ occurrencesAll rs) :
    o.distance + 4 ≤ exactStop rs := by
  rw [Occurrence.distance_eq]
  exact (mem_occurrencesAll_iff.1 h).stop_le

/-- A register lies in one repetition of the declaration, and there within its size. -/
theorem exists_turn {r : RegisterDecl} {o : Occurrence} (h : o ∈ r.occurrences) : ∃ index inner,
    index < r.repetitions ∧ o.distance = r.offset.toNat + index * (r.stride.getD 0).toNat + inner ∧
      inner + 4 ≤ r.exactSize := by
  cases hgroup : r.isGroup with
  | false =>
    rw [occurrences_leaf hgroup, List.mem_map] at h
    obtain ⟨t, ht, rfl⟩ := h
    obtain ⟨rfl, hindex⟩ := mem_turns.1 ht
    exact ⟨t.index, 0, hindex, rfl, Nat.le_of_eq (exactSize_leaf hgroup).symm⟩
  | true =>
    rw [occurrences_group hgroup, List.mem_flatMap] at h
    obtain ⟨t, ht, h⟩ := h
    obtain ⟨inner, hinner, rfl⟩ := List.mem_map.1 h
    obtain ⟨rfl, hindex⟩ := mem_turns.1 ht
    refine ⟨t.index, inner.distance, hindex, rfl, ?_⟩
    rw [exactSize_group hgroup]
    exact stop_le_exactStop hinner

/-! ## Distances from the start of the declaration -/

/-- Where the registers of a declaration lie from its start, wherever that is. -/
def places (r : RegisterDecl) : List Nat := (occurrences { r with offset := 0 }).map Occurrence.distance

/-- A declaration that is moved takes its registers along. -/
theorem map_distance (r : RegisterDecl) :
    r.occurrences.map Occurrence.distance = r.places.map (r.offset.toNat + ·) := by
  unfold places
  rw [List.map_map]
  cases hgroup : r.isGroup with
  | false =>
    have hleaf : isGroup { r with offset := 0 } = false := hgroup
    rw [occurrences_leaf hgroup, occurrences_leaf hleaf]
    simp only [turns, hgroup, hleaf, List.map_map]
    refine List.map_congr_left fun i _ => ?_
    simp [Occurrence.distance, Turn.distance]
  | true =>
    have hgroup' : isGroup { r with offset := 0 } = true := hgroup
    rw [occurrences_group hgroup, occurrences_group hgroup']
    simp only [turns, hgroup, hgroup', List.map_flatMap, List.flatMap_map, List.map_map]
    refine List.flatMap_congr fun i _ => List.map_congr_left fun o _ => ?_
    simp only [Function.comp_apply, Occurrence.distance_within, Turn.distance, UInt64.toNat_zero]
    omega

theorem exists_stride {r : RegisterDecl} {p : Nat} (h : p ∈ r.places) : ∃ index inner, index ≤ r.strides ∧
    p = index * (r.stride.getD 0).toNat + inner ∧ min (inner + 4) max64 ≤ r.size.toNat := by
  obtain ⟨o, ho, rfl⟩ := List.mem_map.1 h
  obtain ⟨index, inner, hindex, hdist, hinner⟩ := exists_turn ho
  have hle : index ≤ r.strides := index_le_strides hindex
  have hsize : inner + 4 ≤ r.exactSize := hinner
  refine ⟨index, inner, hle, ?_, ?_⟩
  · rw [hdist, UInt64.toNat_zero, Nat.zero_add]
  · rw [size_eq_clamp64, toNat_clamp64]
    exact Nat.le_min.2 ⟨Nat.le_trans (Nat.min_le_left _ _) hsize, Nat.min_le_right _ _⟩

/-! ## The footprint of repeated declarations -/

theorem strideIssues_setOffset (path : String) (r : RegisterDecl) (s : UInt64) :
    strideIssues path { r with offset := s } = strideIssues path r := by
  cases r
  rw [strideIssues, strideIssues]
  rfl

theorem size_le_stride {path : String} {r : RegisterDecl} (h : strideIssues path r = [])
    (hcount : 1 < (r.count.getD 1).toNat) : r.size.toNat ≤ (r.stride.getD 0).toNat := by
  cases r with
  | mk name offset access description fields count stride registers =>
    rw [strideIssues] at h
    have hhead := (List.append_eq_nil_iff.1 h).1
    split at hhead
    · cases hhead
    · rename_i hnot
      rw [not_and, UInt64.not_lt, UInt64.le_iff_toNat_le] at hnot
      exact hnot (UInt64.lt_iff_toNat_lt.2 hcount)

theorem toNat_footprint {r : RegisterDecl} {count stride : UInt64} (hcount : r.count = some count)
    (hstride : r.stride = some stride) (hpos : 0 < count.toNat * stride.toNat) :
    r.footprint.toNat = min (count.toNat * stride.toNat) max64 := by
  have hbytes : 0 < mulSat count stride := by
    rw [UInt64.lt_iff_toNat_lt, toNat_mulSat, max64, UInt64.toNat_zero]
    omega
  unfold footprint
  rw [hcount, hstride]
  simp only [if_pos hbytes, toNat_mulSat]

/-- The repetitions of a declaration that are far enough apart lie in its footprint. -/
theorem stop_le_footprint {path : String} {r : RegisterDecl} {p : Nat} (h : strideIssues path r = [])
    (hcount : 1 < (r.count.getD 1).toNat) (hp : p ∈ r.places) : min (p + 4) max64 ≤ r.footprint.toNat := by
  obtain ⟨index, inner, hle, rfl, hinner⟩ := exists_stride hp
  have hsize := size_le_stride h hcount
  unfold strides at hle
  cases hc : r.count with
  | none =>
    rw [hc] at hcount
    exact absurd hcount (by decide)
  | some count =>
    cases hs : r.stride with
    | none =>
      rw [hs] at hsize
      have hzero : ((none : Option UInt64).getD 0).toNat = 0 := rfl
      rw [max64] at hinner
      omega
    | some stride =>
      simp only [hc, hs, Option.getD_some] at hsize hcount hle ⊢
      have hmul := Nat.mul_le_mul_right stride.toNat hle
      have hlast : count.toNat * stride.toNat = (count.toNat - 1) * stride.toNat + stride.toNat := by
        rw [← Nat.succ_mul]
        congr 1
        omega
      have hpos : 0 < stride.toNat := by
        rw [max64] at hinner
        omega
      rw [toNat_footprint hc hs (by omega)]
      omega

end RegisterDecl

end CoreForge
