import Mathlib.Data.List.Induction
import CoreForge.Proofs.Insertion
/-!
# Room for items

Where items can stand that are in the way of a new one. `Stands` says which starts leave
them in their order, apart from each other and within a limit; the pushes are compared
with all of them. `settle` packs items forward with exact numbers: nothing that stands
behind a position stands further in front (`settle_le`), and a push forward arrives at the
ceilings of its starts (`PushedForward.settled`). A push backward succeeds when anything
can stand there, and arrives at or behind it (`exists_pushedBackward`).
-/

namespace CoreForge

open CoreForge.Number

/-- Lists that agree entry by entry with one list agree with each other. -/
theorem forall₂_trans {α β γ : Type} {R : α → β → Prop} {S : β → γ → Prop} {T : α → γ → Prop}
    (hRS : ∀ a b c, R a b → S b c → T a c) {as : List α} {bs : List β} {cs : List γ}
    (hR : List.Forall₂ R as bs) (hS : List.Forall₂ S bs cs) : List.Forall₂ T as cs := by
  induction hR generalizing cs with
  | nil =>
    cases hS
    exact .nil
  | cons hab _ ih =>
    cases hS with
    | cons hbc hS => exact .cons (hRS _ _ _ hab hbc) (ih hS)

namespace Placed

/-! ## Starts that leave room -/

section Starts
variable {α : Type} [Placed α] {limit room : Nat} {x : α} {xs ys : List α} {ss : List Nat}

/-- Items can stand at some starts: each one ends within the limit, and before any later
one starts. -/
inductive Stands (limit : Nat) : List α → List Nat → Prop
  | nil : Stands limit [] []
  | cons {x xs s ss} : s + (footprint x).toNat ≤ limit → (∀ t ∈ ss, s + (footprint x).toNat ≤ t) →
      Stands limit xs ss → Stands limit (x :: xs) (s :: ss)

/-- Where items can stand that follow a new one placed at a position: behind it, and none
of them moved backward. -/
structure RoomAfter (limit free : Nat) (new : α) (after : List α) (ss : List Nat) : Prop where
  stands : Stands limit (new :: after) (free :: ss)
  onward : List.Forall₂ (fun x s => (start x).toNat ≤ s) after ss

/-- Where items can stand in front of a position, none of them moved forward. -/
structure RoomBefore (room : Nat) (before : List α) (ss : List Nat) : Prop where
  stands : Stands room before ss
  backward : List.Forall₂ (fun x s => s ≤ (start x).toNat) before ss

/-- The starts of items. -/
def starts (xs : List α) : List Nat := xs.map fun x => (start x).toNat

/-- The starts of items that are packed forward from a position, each as near to it as
its own start and the items before it let it be. They are exact numbers. -/
def settle : Nat → List α → List Nat
  | _, [] => []
  | free, x :: xs =>
    max free (start x).toNat :: settle (max free (start x).toNat + (footprint x).toNat) xs

theorem Stands.within (h : Stands limit xs ss) :
    List.Forall₂ (fun x s => s + (footprint x).toNat ≤ limit) xs ss := by
  induction h with
  | nil => exact .nil
  | cons hx _ _ ih => exact .cons hx ih

theorem Stands.of_concat (h : Stands limit (xs ++ [x]) ss) :
    ∃ front s, ss = front ++ [s] ∧ s + (footprint x).toNat ≤ limit ∧ Stands s xs front := by
  induction xs generalizing ss with
  | nil =>
    cases h with
    | cons hx _ hnil =>
      cases hnil
      exact ⟨[], _, rfl, hx, .nil⟩
  | cons y ys ih =>
    cases h with
    | cons _ hbehind hrest =>
      obtain ⟨front, s, rfl, hs, hstand⟩ := ih hrest
      exact ⟨_ :: front, s, rfl, hs, .cons (hbehind s (by simp)) (fun t ht => hbehind t (by simp [ht])) hstand⟩

/-- Items that are before each other as far as words tell stand where they are, when none
ends beyond the largest word. -/
theorem stands_starts (hord : ys.Pairwise Before) (hlim : limit ≤ max64) (hin : ∀ y ∈ ys, reach y ≤ limit) :
    Stands limit ys (starts ys) := by
  induction ys with
  | nil => exact .nil
  | cons y ys ih =>
    have hy := hin y (by simp)
    refine .cons hy (fun t ht => ?_) (ih hord.of_cons fun z hz => hin z (by simp [hz]))
    obtain ⟨z, hz, rfl⟩ := List.mem_map.1 ht
    exact (List.rel_of_pairwise_cons hord hz).reach_le (Nat.le_trans hy hlim)

/-! ## Packing forward -/

theorem settle_onward (free : Nat) (xs : List α) :
    List.Forall₂ (fun x s => (start x).toNat ≤ s) xs (settle free xs) := by
  induction xs generalizing free with
  | nil => exact .nil
  | cons x xs ih => exact .cons (Nat.le_max_right _ _) (ih _)

/-- Wherever items stand behind a position, none of them moved backward, they are not in
front of where they are packed. -/
theorem settle_le {free : Nat} (hstand : Stands limit xs ss)
    (honward : List.Forall₂ (fun x s => (start x).toNat ≤ s) xs ss) (hfree : ∀ s ∈ ss, free ≤ s) :
    List.Forall₂ (· ≤ ·) (settle free xs) ss := by
  induction hstand generalizing free with
  | nil => exact .nil
  | @cons x xs s ss _ hbehind _ ih =>
    rw [List.forall₂_cons] at honward
    have hs : max free (start x).toNat ≤ s := Nat.max_le.2 ⟨hfree s (by simp), honward.1⟩
    refine .cons hs (ih honward.2 fun t ht => ?_)
    have := hbehind t ht
    omega

/-- Items with no overlap that are out of the way are packed where they are, even when
the position has passed the ceiling. -/
theorem settled_of_gaps {free : Nat} (hfree : ∀ x ∈ xs, clamp64 free ≤ start x)
    (hgap : xs.Pairwise fun x y => reach x ≤ (start y).toNat) :
    List.Forall₂ (fun x s => start x = clamp64 s) xs (settle free xs) := by
  induction xs generalizing free with
  | nil => exact .nil
  | cons x xs ih =>
    have hx := UInt64.le_iff_toNat_le.1 (hfree x (by simp))
    have htop := toNat_le_max64 (start x)
    rw [toNat_clamp64] at hx
    refine .cons ?_ (ih (fun y hy => ?_) hgap.of_cons)
    · rw [← UInt64.toNat_inj, toNat_clamp64]
      omega
    · have hxy := List.rel_of_pairwise_cons hgap hy
      have hy := toNat_le_max64 (start y)
      rw [reach] at hxy
      rw [UInt64.le_iff_toNat_le, toNat_clamp64]
      omega

/-- A push forward succeeds when the axis has room for the items as they are packed. -/
theorem exists_pushedForward {axis : Axis} {free : Nat}
    (h : List.Forall₂ (fun x s => axis.fits (clamp64 (s + (footprint x).toNat)) = true) xs (settle free xs)) :
    ∃ ys, PushedForward axis (clamp64 free) xs ys := by
  induction xs generalizing free with
  | nil => exact ⟨[], .nil⟩
  | cons x xs ih =>
    rw [settle, List.forall₂_cons] at h
    obtain ⟨hfits, hrest⟩ := h
    by_cases hle : clamp64 free ≤ start x
    · exact ⟨x :: xs, .stay hle⟩
    · have hlt := UInt64.not_le.1 hle
      have hmax : max free (start x).toNat = free := by
        rw [UInt64.lt_iff_toNat_lt, toNat_clamp64] at hlt
        omega
      rw [hmax] at hfits hrest
      obtain ⟨ys, hpush⟩ := ih hrest
      rw [← addSat_clamp64] at hfits hpush
      exact ⟨_, .move hlt hfits hpush⟩

end Starts

/-! ## What the pushes arrive at -/

section Moves
variable {α : Type} [Placed α] [Lawful α] {xs ys : List α} {ss : List Nat}

theorem Stands.of_kept {limit : Nat} (h : Stands limit ys ss) (hk : List.Forall₂ Kept xs ys) : Stands limit xs ss := by
  induction h generalizing xs with
  | nil =>
    cases hk
    exact .nil
  | cons hy hbehind _ ih =>
    cases hk with
    | cons hxy hk =>
      rw [hxy.footprint] at hy hbehind
      exact .cons hy hbehind (ih hk)

/-- Items that are pushed forward start where they are packed, or at the ceiling. -/
theorem PushedForward.settled {axis : Axis} {free : Nat} (h : PushedForward axis (clamp64 free) xs ys)
    (hs : Suits axis α) (hpos : ∀ x ∈ xs, 0 < footprint x)
    (hgap : xs.Pairwise fun x y => reach x ≤ (start y).toNat) :
    List.Forall₂ (fun y s => start y = clamp64 s) ys (settle free xs) := by
  generalize hclamp : clamp64 free = f at h
  induction h generalizing free with
  | nil => exact .nil
  | @stay f x xs hle =>
    refine settled_of_gaps (fun y hy => ?_) hgap
    rw [hclamp]
    rcases List.mem_cons.1 hy with rfl | hy
    · exact hle
    · have hxy := before_of_reach (List.rel_of_pairwise_cons hgap hy)
      exact UInt64.le_trans hle (UInt64.le_trans (start_le_stop x) hxy)
  | @move f x xs ys hlt hfits _ ih =>
    subst hclamp
    have hmax : max free (start x).toNat = free := by
      rw [UInt64.lt_iff_toNat_lt, toNat_clamp64] at hlt
      omega
    rw [settle, hmax]
    refine .cons (Lawful.start_moveTo x _ (hpos x (by simp)) (hs _ hfits)) (ih ?_ hgap.of_cons ?_)
    · exact fun y hy => hpos y (by simp [hy])
    · rw [addSat_clamp64]

/-- A push backward succeeds when the items can stand in front of the position, and none
of them ends up in front of where it can stand. -/
theorem exists_pushedBackward {room : Nat} {free : UInt64} (hroom : RoomBefore room xs ss) (hle : room ≤ free.toNat)
    (hfree : free ≤ Lawful.ceiling α) (hpos : ∀ x ∈ xs, 0 < footprint x) :
    ∃ ys, PushedBackward free xs.reverse ys.reverse ∧ List.Forall₂ (· ≤ ·) ss (starts ys) := by
  induction xs using List.reverseRecOn generalizing room free ss with
  | nil =>
    cases hroom.stands
    exact ⟨[], .nil, .nil⟩
  | append_singleton xs x ih =>
    obtain ⟨hstand, hback⟩ := hroom
    obtain ⟨front, s, rfl, hs, hfront⟩ := hstand.of_concat
    have hpos' : ∀ y ∈ xs, 0 < footprint y := fun y hy => hpos y (by simp [hy])
    by_cases hstay : stop x ≤ free
    · refine ⟨xs ++ [x], ?_, ?_⟩
      · rw [List.reverse_append]
        exact .stay hstay
      · exact List.forall₂_map_right_iff.2 hback.flip
    · have hlt := UInt64.not_le.1 hstay
      rw [← List.forall₂_reverse_iff, List.reverse_append, List.reverse_append] at hback
      obtain ⟨-, hback'⟩ := List.forall₂_cons.1 hback
      -- The item moves to where it ends at the position, and the rest gets at least the room it needs.
      obtain ⟨t, ht⟩ : ∃ t : UInt64, t.toNat + (footprint x).toNat = free.toNat := by
        refine ⟨clamp64 (free.toNat - (footprint x).toNat), ?_⟩
        have := toNat_le_max64 free
        rw [toNat_clamp64]
        omega
      obtain ⟨htop, hfit⟩ := PushedBackward.room ht hfree
      have hst : s ≤ t.toNat := by omega
      obtain ⟨ys, hpush, hys⟩ := ih ⟨hfront, List.forall₂_reverse_iff.1 hback'⟩ hst htop hpos'
      refine ⟨ys ++ [moveTo x t], ?_, ?_⟩
      · rw [List.reverse_append, List.reverse_append]
        exact .move hlt ht hpush
      · rw [starts, List.map_append]
        refine List.rel_append hys (.cons ?_ .nil)
        change s ≤ (start (moveTo x t)).toNat
        rw [Lawful.start_moveTo x t (hpos x (by simp)) hfit]
        exact hst

end Moves

end Placed

end CoreForge
