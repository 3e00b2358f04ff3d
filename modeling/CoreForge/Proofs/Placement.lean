import Mathlib.Data.List.Forall2
import CoreForge.Placement.Insertion
import CoreForge.Proofs.BitNotation
/-!
# Pushing items along an axis

What an insertion does to the items that are in its way. `PushedForward` and
`PushedBackward` say what the two pushes can do, one case for each way an item is met;
all that is said about pushed items follows by induction on these.

Items are compared by `Before`, as the pushes do it: with a stop that has a ceiling.
Only `reach` is the exact end of an item.
-/

namespace CoreForge

open CoreForge.Number

namespace Placed

section Intervals
variable {α : Type} [Placed α]

/-- The exact first position after an item. -/
def reach (x : α) : Nat := (start x).toNat + (footprint x).toNat

/-- The item lies on a position. -/
def Covers (x : α) (n : Nat) : Prop := (start x).toNat ≤ n ∧ n < reach x

/-- Two items have no position in common. -/
def Apart (x y : α) : Prop := ∀ n, ¬ (Covers x n ∧ Covers y n)

/-- The first item stops before the second one starts. -/
def Before (x y : α) : Prop := stop x ≤ start y

theorem toNat_stop (x : α) : (stop x).toNat = min (reach x) max64 := toNat_addSat _ _

theorem start_le_stop (x : α) : start x ≤ stop x := by
  have := toNat_le_max64 (start x)
  rw [UInt64.le_iff_toNat_le, toNat_stop, reach]
  omega

theorem Before.trans {x y z : α} (h : Before x y) (h' : Before y z) : Before x z :=
  UInt64.le_trans h (UInt64.le_trans (start_le_stop y) h')

theorem before_of_reach {x y : α} (h : reach x ≤ (start y).toNat) : Before x y := by
  rw [Before, UInt64.le_iff_toNat_le, toNat_stop]
  omega

theorem Before.reach_le {x y : α} (h : Before x y) (hx : reach x ≤ max64) : reach x ≤ (start y).toNat := by
  rw [Before, UInt64.le_iff_toNat_le, toNat_stop] at h
  omega

theorem apart_of_reach {x y : α} (h : reach x ≤ (start y).toNat) : Apart x y := by
  rintro n ⟨⟨-, hx⟩, hy, -⟩
  omega

theorem Apart.symm {x y : α} (h : Apart x y) : Apart y x := fun n hn => h n hn.symm

/-- Of two items that have no position in common, the one that starts first stops first. -/
theorem Apart.reach_le {x y : α} (h : Apart x y) (hle : start x ≤ start y) (hy : 0 < footprint y) :
    reach x ≤ (start y).toNat := by
  rw [UInt64.le_iff_toNat_le] at hle
  rw [UInt64.lt_iff_toNat_lt, UInt64.toNat_zero] at hy
  by_contra hlt
  -- Otherwise both lie on the position where the second one starts.
  exact h (start y).toNat ⟨⟨hle, by omega⟩, Nat.le_refl _, by rw [reach]; omega⟩

/-- A list in which an item stands between others is ordered when both parts are, and
the item is before the one and behind the other. -/
theorem pairwise_before_middle {xs ys : List α} {x : α} (hxs : xs.Pairwise Before) (hys : ys.Pairwise Before)
    (hx : ∀ a ∈ xs, Before a x) (hy : ∀ b ∈ ys, Before x b) : (xs ++ x :: ys).Pairwise Before := by
  rw [List.pairwise_append, List.pairwise_cons]
  refine ⟨hxs, ⟨hy, hys⟩, fun a ha b hb => ?_⟩
  rcases List.mem_cons.1 hb with rfl | hb
  · exact hx a ha
  · exact (hx a ha).trans (hy b hb)

end Intervals

/-! ## The two pushes -/

section Pushes
variable {α : Type} [Placed α]

/-- How items are met when they are pushed forward: none is left, the next one is out
of the way and so are those behind it, or the next one is moved and pushes on. -/
inductive PushedForward (axis : Axis) : UInt64 → List α → List α → Prop
  | nil {free} : PushedForward axis free [] []
  | stay {free x xs} : free ≤ start x → PushedForward axis free (x :: xs) (x :: xs)
  | move {free x xs ys} : start x < free → axis.fits (addSat free (footprint x)) = true →
      PushedForward axis (addSat free (footprint x)) xs ys →
      PushedForward axis free (x :: xs) (moveTo x free :: ys)

theorem pushForward_eq_some_iff {axis : Axis} {free : UInt64} {xs ys : List α} :
    pushForward axis free xs = some ys ↔ PushedForward axis free xs ys := by
  constructor
  · intro h
    induction xs generalizing free ys with
    | nil =>
      simp only [pushForward, Option.some.injEq] at h
      subst h
      exact .nil
    | cons x xs ih =>
      rw [pushForward] at h
      split at h
      · simp only [Option.some.injEq] at h
        subst h
        exact .stay ‹_›
      · simp only at h
        split at h
        · obtain ⟨zs, hzs, rfl⟩ := Option.map_eq_some_iff.1 h
          exact .move (UInt64.not_le.1 ‹_›) ‹_› (ih hzs)
        · cases h
  · intro h
    induction h with
    | nil => rfl
    | stay hle => rw [pushForward, if_pos hle]
    | move hlt hfits _ ih =>
      rw [pushForward, if_neg (UInt64.not_le.2 hlt)]
      simp only [hfits, if_true, ih, Option.map_some]

/-- How items are met when they are pushed backward, the last one first. -/
inductive PushedBackward : UInt64 → List α → List α → Prop
  | nil {free} : PushedBackward free [] []
  | stay {free x xs} : stop x ≤ free → PushedBackward free (x :: xs) (x :: xs)
  | move {free s x xs ys} : free < stop x → s.toNat + (footprint x).toNat = free.toNat → PushedBackward s xs ys →
      PushedBackward free (x :: xs) (moveTo x s :: ys)

theorem pushBackward_eq_some_iff {free : UInt64} {xs ys : List α} :
    pushBackward free xs = some ys ↔ PushedBackward free xs ys := by
  constructor
  · intro h
    induction xs generalizing free ys with
    | nil =>
      simp only [pushBackward, Option.some.injEq] at h
      subst h
      exact .nil
    | cons x xs ih =>
      rw [pushBackward] at h
      split at h
      · simp only [Option.some.injEq] at h
        subst h
        exact .stay ‹_›
      · split at h
        · rename_i s hs
          obtain ⟨zs, hzs, rfl⟩ := Option.map_eq_some_iff.1 h
          exact .move (UInt64.not_le.1 ‹_›) (sub?_eq_some_iff.1 hs) (ih hzs)
        · cases h
  · intro h
    induction h with
    | nil => rfl
    | stay hle => rw [pushBackward, if_pos hle]
    | move hlt hs _ ih =>
      rw [pushBackward, if_neg (UInt64.not_le.2 hlt), sub?_eq_some_iff.2 hs]
      simp only [ih, Option.map_some]

end Pushes

/-! ## Lawful items -/

/-- Items that can be told apart from their place. A move to a place where the item
fits below the ceiling changes its start and nothing else. -/
class Lawful (α : Type) [Placed α] where
  /-- The last position where items of this kind can stop. -/
  ceiling : UInt64
  /-- The footprint of new items. -/
  freshSize : UInt64
  /-- The item without its place. -/
  bare : α → α
  start_le_ceiling (x : α) : start x ≤ ceiling
  start_moveTo (x : α) (s : UInt64) : 0 < footprint x → addSat s (footprint x) ≤ ceiling → start (moveTo x s) = s
  footprint_moveTo (x : α) (s : UInt64) : 0 < footprint x → addSat s (footprint x) ≤ ceiling →
    footprint (moveTo x s) = footprint x
  bare_moveTo (x : α) (s : UInt64) : bare (moveTo x s) = bare x
  start_create (name : String) : start (create name 0 : α) = 0
  footprint_create (name : String) (s : UInt64) : footprint (create name s : α) = freshSize
  freshSize_pos : 0 < freshSize

section Moves
variable {α : Type} [Placed α] [Lawful α]

/-- The second item is the first one, maybe at another place. -/
structure Kept (x y : α) : Prop where
  footprint : footprint y = footprint x
  bare : Lawful.bare y = Lawful.bare x

theorem Kept.refl (x : α) : Kept x x := ⟨rfl, rfl⟩

theorem kept_moveTo {x : α} {s : UInt64} (hx : 0 < footprint x) (h : addSat s (footprint x) ≤ Lawful.ceiling α) :
    Kept x (moveTo x s) :=
  ⟨Lawful.footprint_moveTo x s hx h, Lawful.bare_moveTo x s⟩

theorem stop_moveTo {x : α} {s : UInt64} (hx : 0 < footprint x) (h : addSat s (footprint x) ≤ Lawful.ceiling α) :
    stop (moveTo x s) = addSat s (footprint x) := by
  rw [stop, Lawful.start_moveTo x s hx h, Lawful.footprint_moveTo x s hx h]

theorem fits_of_le {axis : Axis} {s t : UInt64} (h : s ≤ t) (ht : axis.fits t = true) : axis.fits s = true := by
  unfold Axis.fits at *
  cases hlimit : axis.limit with
  | none => rfl
  | some limit =>
    rw [hlimit] at ht
    simp only [decide_eq_true_eq] at *
    exact UInt64.le_trans h ht

/-- The axis lets no item stop beyond the ceiling of its kind. -/
def Suits (axis : Axis) (α : Type) [Placed α] [Lawful α] : Prop :=
  ∀ s, axis.fits s = true → s ≤ Lawful.ceiling α

namespace PushedForward
variable {axis : Axis} {free : UInt64} {xs ys : List α}

theorem kept (h : PushedForward axis free xs ys) (hs : Suits axis α) (hpos : ∀ x ∈ xs, 0 < footprint x) :
    List.Forall₂ Kept xs ys := by
  induction h with
  | nil => exact .nil
  | stay _ => exact List.forall₂_same.2 fun x _ => .refl x
  | move _ hfits _ ih =>
    exact .cons (kept_moveTo (hpos _ (by simp)) (hs _ hfits)) (ih fun x hx => hpos x (by simp [hx]))

/-- Pushed items start behind the position that they were pushed from. -/
theorem free_le (h : PushedForward axis free xs ys) (hs : Suits axis α) (hpos : ∀ x ∈ xs, 0 < footprint x)
    (hord : xs.Pairwise Before) : ∀ y ∈ ys, free ≤ start y := by
  induction h with
  | nil => simp
  | stay hle =>
    intro y hy
    rcases List.mem_cons.1 hy with rfl | hy
    · exact hle
    · exact UInt64.le_trans hle (UInt64.le_trans (start_le_stop _) (List.rel_of_pairwise_cons hord hy))
  | @move free x xs ys _ hfits _ ih =>
    have hx := hpos x (by simp)
    have hstart := Lawful.start_moveTo x free hx (hs _ hfits)
    intro y hy
    rcases List.mem_cons.1 hy with rfl | hy
    · rw [hstart]
      exact UInt64.le_refl _
    -- The pushed item pushes on from its stop, which is behind its start.
    · have hstop := ih (fun x hx => hpos x (by simp [hx])) hord.of_cons y hy
      rw [← stop_moveTo hx (hs _ hfits)] at hstop
      have hfree : free ≤ stop (moveTo x free) := by
        conv_lhs => rw [← hstart]
        exact start_le_stop _
      exact UInt64.le_trans hfree hstop

theorem ordered (h : PushedForward axis free xs ys) (hs : Suits axis α) (hpos : ∀ x ∈ xs, 0 < footprint x)
    (hord : xs.Pairwise Before) : ys.Pairwise Before := by
  induction h with
  | nil => exact .nil
  | stay _ => exact hord
  | @move free x xs ys _ hfits hpush ih =>
    have hpos' : ∀ x ∈ xs, 0 < footprint x := fun x hx => hpos x (by simp [hx])
    refine List.pairwise_cons.2 ⟨fun y hy => ?_, ih hpos' hord.of_cons⟩
    rw [Before, stop_moveTo (hpos x (by simp)) (hs _ hfits)]
    exact hpush.free_le hs hpos' hord.of_cons y hy

/-- Items that had no position in common are all moved by at most as much as the first
one has to give way. -/
theorem shift (h : PushedForward axis free xs ys) (hs : Suits axis α) (hpos : ∀ x ∈ xs, 0 < footprint x)
    (hgap : xs.Pairwise fun x y => reach x ≤ (start y).toNat) (d : Nat)
    (hfree : ∀ x ∈ xs, free.toNat ≤ (start x).toNat + d) :
    List.Forall₂ (fun x y => (start y).toNat ≤ (start x).toNat + d) xs ys := by
  induction h with
  | nil => exact .nil
  | stay _ => exact List.forall₂_same.2 fun x _ => Nat.le_add_right _ _
  | @move free x xs ys _ hfits _ ih =>
    have hx := hpos x (by simp)
    have hf := hfree x (by simp)
    refine .cons ?_ (ih (fun x hx => hpos x (by simp [hx])) hgap.of_cons fun z hz => ?_)
    · rw [Lawful.start_moveTo x free hx (hs _ hfits)]
      exact hf
    -- The next item started behind the exact end of this one, so it gives way no further.
    · have hxz := List.rel_of_pairwise_cons hgap hz
      rw [reach] at hxz
      rw [toNat_addSat]
      omega

theorem fits (h : PushedForward axis free xs ys) (hs : Suits axis α) (hpos : ∀ x ∈ xs, 0 < footprint x)
    (hfit : ∀ x ∈ xs, axis.fits (stop x) = true) : ∀ y ∈ ys, axis.fits (stop y) = true := by
  induction h with
  | nil => simp
  | stay _ => exact hfit
  | move _ hfits _ ih =>
    intro y hy
    rcases List.mem_cons.1 hy with rfl | hy
    · rw [stop_moveTo (hpos _ (by simp)) (hs _ hfits)]
      exact hfits
    · exact ih (fun x hx => hpos x (by simp [hx])) (fun x hx => hfit x (by simp [hx])) y hy

end PushedForward

/-! ## Pushing backward -/

namespace PushedBackward
variable {free : UInt64} {xs ys : List α}

/-- An item that stops at a position within the ceiling also starts and fits within it. -/
theorem room {s free : UInt64} {x : α} (hs : s.toNat + (footprint x).toNat = free.toNat)
    (hfree : free ≤ Lawful.ceiling α) : s ≤ Lawful.ceiling α ∧ addSat s (footprint x) ≤ Lawful.ceiling α := by
  rw [addSat_of_toNat hs]
  rw [UInt64.le_iff_toNat_le] at hfree ⊢
  exact ⟨by omega, UInt64.le_iff_toNat_le.2 hfree⟩

theorem kept (h : PushedBackward free xs ys) (hpos : ∀ x ∈ xs, 0 < footprint x)
    (hfree : free ≤ Lawful.ceiling α) : List.Forall₂ Kept xs ys := by
  induction h with
  | nil => exact .nil
  | stay _ => exact List.forall₂_same.2 fun x _ => .refl x
  | move _ hs _ ih =>
    obtain ⟨hs', hfit⟩ := room hs hfree
    exact .cons (kept_moveTo (hpos _ (by simp)) hfit) (ih (fun x hx => hpos x (by simp [hx])) hs')

/-- Pushed items stop before the position that they were pushed from. -/
theorem le_free (h : PushedBackward free xs ys) (hpos : ∀ x ∈ xs, 0 < footprint x)
    (hfree : free ≤ Lawful.ceiling α) (hord : xs.Pairwise fun x y => Before y x) : ∀ y ∈ ys, stop y ≤ free := by
  induction h with
  | nil => simp
  | stay hle =>
    intro y hy
    rcases List.mem_cons.1 hy with rfl | hy
    · exact hle
    · exact UInt64.le_trans (UInt64.le_trans (List.rel_of_pairwise_cons hord hy) (start_le_stop _)) hle
  | @move free s x xs ys _ hs _ ih =>
    obtain ⟨hs', hfit⟩ := room hs hfree
    have hle : s ≤ free := by
      rw [UInt64.le_iff_toNat_le]
      omega
    intro y hy
    rcases List.mem_cons.1 hy with rfl | hy
    · rw [stop_moveTo (hpos x (by simp)) hfit, addSat_of_toNat hs]
      exact UInt64.le_refl _
    · exact UInt64.le_trans (ih (fun x hx => hpos x (by simp [hx])) hs' hord.of_cons y hy) hle

theorem ordered (h : PushedBackward free xs ys) (hpos : ∀ x ∈ xs, 0 < footprint x)
    (hfree : free ≤ Lawful.ceiling α) (hord : xs.Pairwise fun x y => Before y x) :
    ys.Pairwise fun x y => Before y x := by
  induction h with
  | nil => exact .nil
  | stay _ => exact hord
  | @move free s x xs ys _ hs hpush ih =>
    obtain ⟨hs', hfit⟩ := room hs hfree
    have hpos' : ∀ x ∈ xs, 0 < footprint x := fun x hx => hpos x (by simp [hx])
    refine List.pairwise_cons.2 ⟨fun y hy => ?_, ih hpos' hs' hord.of_cons⟩
    rw [Before, Lawful.start_moveTo x s (hpos x (by simp)) hfit]
    exact hpush.le_free hpos' hs' hord.of_cons y hy

/-- No item is moved forward. -/
theorem shift (h : PushedBackward free xs ys) (hpos : ∀ x ∈ xs, 0 < footprint x)
    (hfree : free ≤ Lawful.ceiling α) : List.Forall₂ (fun x y => start y ≤ start x) xs ys := by
  induction h with
  | nil => exact .nil
  | stay _ => exact List.forall₂_same.2 fun x _ => UInt64.le_refl _
  | @move free s x xs ys hlt hs _ ih =>
    obtain ⟨hs', hfit⟩ := room hs hfree
    refine .cons ?_ (ih (fun x hx => hpos x (by simp [hx])) hs')
    rw [Lawful.start_moveTo x s (hpos x (by simp)) hfit]
    rw [UInt64.lt_iff_toNat_lt, toNat_stop, reach] at hlt
    rw [UInt64.le_iff_toNat_le]
    omega

end PushedBackward

end Moves

end Placed

end CoreForge
