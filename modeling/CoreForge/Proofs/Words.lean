import Mathlib.Data.List.Basic
import CoreForge.Number.Saturate
/-!
# Words and sorting by a word

Saturation happens once: `addSat_clamp64` and `mulSat_clamp64` move a ceiling to the
outside of a sum or a product, so nested saturating sums are one ceiling on the exact
sum. `SortedBy` says what a stable sort is, apart from any way to sort.
-/

namespace CoreForge

namespace Number

/-! ## Words from numbers -/

theorem toNat_le_max64 (w : UInt64) : w.toNat ≤ max64 := by
  have := w.toNat_lt
  rw [max64]
  omega

theorem toNat_le_max32 (w : UInt32) : w.toNat ≤ max32 := by
  have := w.toNat_lt
  rw [max32]
  omega

theorem max32_lt_max64 : max32 < max64 := by decide

theorem clamp64_toNat (w : UInt64) : clamp64 w.toNat = w := by
  apply UInt64.toNat.inj
  have := toNat_le_max64 w
  rw [toNat_clamp64]
  omega

theorem le_clamp64_max64 (w : UInt64) : w ≤ clamp64 max64 := by
  rw [UInt64.le_iff_toNat_le, toNat_clamp64, Nat.min_self]
  exact toNat_le_max64 w

theorem clamp32_toNat (w : UInt32) : clamp32 w.toNat = w := by
  apply UInt32.toNat.inj
  have := toNat_le_max32 w
  rw [toNat_clamp32]
  omega

theorem toNat_clamp64_word32 (w : UInt32) : (clamp64 w.toNat).toNat = w.toNat := by
  have := toNat_le_max32 w
  have := max32_lt_max64
  rw [toNat_clamp64]
  omega

theorem clamp32_clamp64 (w : UInt32) : clamp32 (clamp64 w.toNat).toNat = w := by
  rw [toNat_clamp64_word32, clamp32_toNat]

theorem addSat_clamp64 (m : Nat) (w : UInt64) : addSat (clamp64 m) w = clamp64 (m + w.toNat) := by
  apply UInt64.toNat.inj
  rw [toNat_addSat, toNat_clamp64, toNat_clamp64]
  omega

theorem addSat_clamp64_clamp64 (m n : Nat) : addSat (clamp64 m) (clamp64 n) = clamp64 (m + n) := by
  apply UInt64.toNat.inj
  rw [toNat_addSat, toNat_clamp64, toNat_clamp64, toNat_clamp64]
  omega

theorem mulSat_clamp64 (m : Nat) (w : UInt64) : mulSat (clamp64 m) w = clamp64 (m * w.toNat) := by
  apply UInt64.toNat.inj
  rw [toNat_mulSat, toNat_clamp64, toNat_clamp64]
  rcases Nat.le_total m max64 with h | h
  · rw [Nat.min_eq_left h]
  · rw [Nat.min_eq_right h]
    rcases Nat.eq_zero_or_pos w.toNat with hw | hw
    · simp [hw]
    · have h1 : max64 ≤ max64 * w.toNat := Nat.le_mul_of_pos_right _ hw
      have h2 : max64 ≤ m * w.toNat := Nat.le_trans h (Nat.le_mul_of_pos_right _ hw)
      omega

theorem addSat_comm (a b : UInt64) : addSat a b = addSat b a := by
  rw [addSat, addSat, Nat.add_comm]

theorem max_clamp64 (m n : Nat) : max (clamp64 m) (clamp64 n) = clamp64 (max m n) := by
  apply UInt64.toNat.inj
  change (if clamp64 m ≤ clamp64 n then clamp64 n else clamp64 m).toNat = _
  rw [toNat_clamp64]
  split <;> rename_i h <;> rw [UInt64.le_iff_toNat_le, toNat_clamp64, toNat_clamp64] at h <;>
    rw [toNat_clamp64] <;> omega

theorem sub?_eq_some_iff {a b c : UInt64} : sub? a b = some c ↔ c.toNat + b.toNat = a.toNat := by
  unfold sub?
  split
  · rename_i h
    have hle := UInt64.le_iff_toNat_le.1 h
    have hsub := UInt64.toNat_sub_of_le a b h
    rw [Option.some.injEq, ← UInt64.toNat_inj, hsub]
    omega
  · rename_i h
    rw [UInt64.le_iff_toNat_le] at h
    simp only [reduceCtorEq, false_iff]
    omega

theorem sub?_eq_none_iff {a b : UInt64} : sub? a b = none ↔ a.toNat < b.toNat := by
  unfold sub?
  split
  · rename_i h
    have := UInt64.le_iff_toNat_le.1 h
    simp only [reduceCtorEq, false_iff]
    omega
  · rename_i h
    rw [UInt64.le_iff_toNat_le] at h
    simp only [true_iff]
    omega

theorem addSat_of_toNat {a b c : UInt64} (h : a.toNat + b.toNat = c.toNat) : addSat a b = c := by
  rw [addSat, h, clamp64_toNat]

end Number

/-! ## Stable sorting -/

/-- `out` is `l` sorted by a key, elements with the same key in their old order. -/
structure SortedBy {α : Type} (key : α → UInt64) (l out : List α) : Prop where
  ascending : out.Pairwise fun a b => key a ≤ key b
  perm : out.Perm l
  stable : ∀ k, out.filter (fun a => key a = k) = l.filter fun a => key a = k

section Sorting
variable {α : Type} (key : α → UInt64)

theorem keyLe_trans (a b c : α) (hab : decide (key a ≤ key b) = true) (hbc : decide (key b ≤ key c) = true) :
    decide (key a ≤ key c) = true := by
  simp only [decide_eq_true_eq] at *
  exact UInt64.le_trans hab hbc

theorem keyLe_total (a b : α) : (decide (key a ≤ key b) || decide (key b ≤ key a)) = true := by
  simpa using UInt64.le_total (key a) (key b)

theorem ascending_mergeSort (l : List α) :
    (l.mergeSort fun a b => key a ≤ key b).Pairwise fun a b => key a ≤ key b := by
  have h := List.pairwise_mergeSort (keyLe_trans key) (keyLe_total key) l
  simpa using h

/-- Elements with the same key are sorted already, so sorting leaves them in order. -/
theorem filter_mergeSort (l : List α) (k : UInt64) :
    (l.mergeSort fun a b => key a ≤ key b).filter (fun a => key a = k) = l.filter fun a => key a = k := by
  have hsame : (l.filter fun a => key a = k).Pairwise fun a b => decide (key a ≤ key b) = true := by
    rw [List.pairwise_filter]
    refine List.pairwise_of_forall fun a b ha hb => ?_
    simp only [decide_eq_true_eq] at ha hb
    simp [ha, hb]
  have hsub := List.sublist_mergeSort (keyLe_trans key) (keyLe_total key) hsame List.filter_sublist
  have hsub' := hsub.filter fun a => decide (key a = k)
  rw [List.filter_filter] at hsub'
  simp only [Bool.and_self] at hsub'
  exact (hsub'.eq_of_length ((List.mergeSort_perm l _).filter _).length_eq.symm).symm

theorem sortedBy_mergeSort (l : List α) : SortedBy key l (l.mergeSort fun a b => key a ≤ key b) :=
  ⟨ascending_mergeSort key l, List.mergeSort_perm l _, filter_mergeSort key l⟩

/-- Lists that agree in the keys are sorted alike, so their sorted forms agree where they do. -/
theorem mergeSort_map_eq_iff {β : Type} {f g : β → α} {l : List β} (hkey : ∀ x ∈ l, key (f x) = key (g x)) :
    ((l.map f).mergeSort fun a b => key a ≤ key b) = ((l.map g).mergeSort fun a b => key a ≤ key b) ↔
      ∀ x ∈ l, f x = g x := by
  have hf : (l.mergeSort fun x y => key (f x) ≤ key (f y)).map f = (l.map f).mergeSort fun a b => key a ≤ key b :=
    List.map_mergeSort fun _ _ _ _ => rfl
  have hg : (l.mergeSort fun x y => key (f x) ≤ key (f y)).map g = (l.map g).mergeSort fun a b => key a ≤ key b := by
    refine List.map_mergeSort fun x hx y hy => ?_
    rw [hkey x hx, hkey y hy]
  rw [← hf, ← hg, List.map_inj_left]
  simp only [List.mem_mergeSort]

end Sorting

end CoreForge
