import CoreForge.Proofs.Editing
import CoreForge.Proofs.Packing
/-!
# Items give way as little as they can

An insertion is refused only when there is no room, and no other way to make room moves
an item less. `Editor.insertAfter_least`: behind a reference the following items are
pushed exactly when they can stand behind the new one at all, to the least starts there
are. `Editor.insertBefore_greatest`: in front of a reference both refusals are
characterized, and the items before are drawn back to the greatest starts there are.
-/

namespace CoreForge

open CoreForge.Number

namespace Placed

/-! ## The answer, read off the items in order -/

/-- The answer of an insertion that a push decides. -/
def decidedBy {α : Type} (items : List α) (pushed : Option (List α)) (result : List α → List α) (position : Nat)
    (reason : Refusal) : Insertion α :=
  match pushed with
  | some ys => .done (result ys) position
  | none => .failed items reason

section Decisions
variable {α : Type} {items ys : List α} {pushed : Option (List α)} {result : List α → List α} {position index : Nat}
  {reason e : Refusal}

theorem decidedBy_eq_done_iff : decidedBy items pushed result position reason = .done ys index ↔
    ∃ zs, pushed = some zs ∧ ys = result zs ∧ index = position := by
  cases pushed with
  | none => simp [decidedBy]
  | some zs => simp [decidedBy, eq_comm]

theorem decidedBy_eq_failed (h : decidedBy items pushed result position reason = .failed items e) : e = reason := by
  cases pushed with
  | none => exact (Insertion.failed_inj.1 h).2.symm
  | some ys => exact absurd h (by simp [decidedBy])

end Decisions

section Answers
variable {α : Type} [Placed α] {items before after : List α} {ref : α}

theorem divide?_eq_none_iff {index : Nat} : divide? items index = none ↔ items.length ≤ index := by
  constructor
  · intro h
    by_contra hlt
    unfold divide? at h
    simp only at h
    split at h
    · rename_i hdrop
      have hget := List.getElem?_eq_getElem (Nat.lt_of_not_le hlt)
      have hmem : (items[index], index) ∈ arranged items :=
        (List.mergeSort_perm _ _).mem_iff.2 (List.mem_zipIdx_iff_getElem?.2 hget)
      simpa using List.dropWhile_eq_nil_iff.1 hdrop _ hmem
    · cases h
  · intro hle
    cases hdiv : divide? items index with
    | none => rfl
    | some p =>
      obtain ⟨hget, -⟩ := divide?_eq_some hdiv
      rw [List.getElem?_eq_none hle] at hget
      cases hget

variable (hocc : ∀ x ∈ items, 0 < footprint x)
  (hgaps : (inOrder items).Pairwise fun x y => reach x ≤ (start y).toNat)
  (horder : inOrder items = before ++ ref :: after)
include hocc hgaps horder

/-- No two items with no overlap start together, so there is one way to divide them. -/
theorem divide?_of_getElem? {index : Nat} (hget : items[index]? = some ref) :
    divide? items index = some (before, ref, after) := by
  have hlt : index < items.length := (List.getElem?_eq_some_iff.1 hget).1
  cases hdiv : divide? items index with
  | none => exact absurd (divide?_eq_none_iff.1 hdiv) (Nat.not_le.2 hlt)
  | some p =>
    obtain ⟨before', ref', after'⟩ := p
    obtain ⟨hget', horder'⟩ := divide?_eq_some hdiv
    rw [hget, Option.some.injEq] at hget'
    subst hget'
    have hpos : 0 < (footprint ref).toNat := by
      have := forall_mem_of_inOrder horder hocc ref (by simp)
      rwa [UInt64.lt_iff_toNat_lt, UInt64.toNat_zero] at this
    have hself : ¬ reach ref ≤ (start ref).toNat := by
      rw [reach]
      omega
    rw [horder', List.pairwise_append, List.pairwise_cons] at hgaps
    obtain ⟨-, ⟨hafter, -⟩, hbefore⟩ := hgaps
    have hinj := (List.append_cons_inj_of_notMem (fun h => hself (hbefore ref h ref (by simp)))
      fun h => hself (hafter ref h)).1 (horder'.symm.trans horder)
    rw [hinj.1, hinj.2.2]

theorem insertAfter_eq {selected : Option Nat} {axis : Axis} (href : reference? items selected = some ref) :
    insertAfter items selected axis =
      if axis.fits (addSat (stop ref) (footprint (fresh items))) then
        decidedBy items (pushForward axis (stop (moveTo (fresh items) (stop ref))) after)
          (fun after' => before ++ ref :: moveTo (fresh items) (stop ref) :: after') (before.length + 1) .outOfBounds
      else .failed items .outOfBounds := by
  obtain ⟨y, others, rfl⟩ : ∃ y others, items = y :: others := List.exists_cons_of_ne_nil <| by
    rintro rfl
    exact absurd (mem_of_reference? href) (by simp)
  have hget : (y :: others)[selected.getD others.length]? = some ref := by
    cases selected with
    | some index => exact href
    | none => simpa [reference?, List.getLast?_eq_getElem?] using href
  simp only [insertAfter, divide?_of_getElem? hocc hgaps horder hget]
  rfl

theorem insertBefore_eq {index : Nat} (hget : items[index]? = some ref) :
    insertBefore items (some index) =
      match sub? (start ref) (footprint (fresh items)) with
      | none => .failed items .negativeOffset
      | some free =>
        decidedBy items (pushBackward free before.reverse)
          (fun back => back.reverse ++ moveTo (fresh items) free :: ref :: after) before.length .occupied := by
  simp only [insertBefore, divide?_of_getElem? hocc hgaps horder hget]
  rfl

/-- With a reference, only the end of the axis stops an insertion behind it. -/
theorem insertAfter_failed {selected : Option Nat} {axis : Axis} {e : Refusal}
    (href : reference? items selected = some ref) (h : insertAfter items selected axis = .failed items e) :
    e = .outOfBounds := by
  rw [insertAfter_eq hocc hgaps horder href] at h
  split at h
  · exact decidedBy_eq_failed h
  · exact (Insertion.failed_inj.1 h).2.symm

/-- An insertion in front of a reference that starts too early for the new item is the one
that is negative. -/
theorem insertBefore_negative_iff {index : Nat} (hget : items[index]? = some ref) :
    insertBefore items (some index) = .failed items .negativeOffset ↔
      (start ref).toNat < (footprint (fresh items)).toNat := by
  rw [insertBefore_eq hocc hgaps horder hget, ← sub?_eq_none_iff]
  split
  · rename_i hnone
    simp [hnone]
  · rename_i free hfree
    unfold decidedBy
    split <;> simp [hfree]

/-- With the new item on the axis, the answer in front of a reference is that of the push. -/
theorem insertBefore_done_iff {index position : Nat} {free : UInt64} {ys : List α} (hget : items[index]? = some ref)
    (hfree : free.toNat + (footprint (fresh items)).toNat = (start ref).toNat) :
    insertBefore items (some index) = .done ys position ↔ ∃ before', PushedBackward free before.reverse before'.reverse ∧
      ys = before' ++ moveTo (fresh items) free :: ref :: after ∧ position = before.length := by
  rw [insertBefore_eq hocc hgaps horder hget, sub?_eq_some_iff.2 hfree]
  refine decidedBy_eq_done_iff.trans ⟨?_, ?_⟩
  · rintro ⟨back, hpush, rfl, rfl⟩
    refine ⟨back.reverse, ?_, rfl, rfl⟩
    rw [List.reverse_reverse]
    exact pushBackward_eq_some_iff.1 hpush
  · rintro ⟨before', hpush, rfl, rfl⟩
    refine ⟨before'.reverse, pushBackward_eq_some_iff.2 hpush, ?_, rfl⟩
    rw [List.reverse_reverse]

/-- With the new item on the axis, an insertion in front of a reference is refused because
the items before it leave no room. -/
theorem insertBefore_failed {index : Nat} {free : UInt64} {e : Refusal} (hget : items[index]? = some ref)
    (hfree : free.toNat + (footprint (fresh items)).toNat = (start ref).toNat)
    (h : insertBefore items (some index) = .failed items e) : e = .occupied := by
  rw [insertBefore_eq hocc hgaps horder hget, sub?_eq_some_iff.2 hfree] at h
  exact decidedBy_eq_failed h

end Answers

section Tight
variable {α : Type} [Placed α] [Lawful α] {items before after : List α} {ref : α}

/-- An insertion behind a reference succeeds exactly when the axis has room for the new
item and those behind it can be pushed on from its exact end. -/
theorem insertAfter_done_iff {selected : Option Nat} {axis : Axis} {position : Nat} {ys : List α} (hs : Suits axis α)
    (hocc : ∀ x ∈ items, 0 < footprint x)
    (hgaps : (inOrder items).Pairwise fun x y => reach x ≤ (start y).toNat)
    (horder : inOrder items = before ++ ref :: after) (href : reference? items selected = some ref) :
    insertAfter items selected axis = .done ys position ↔
      axis.fits (clamp64 (reach ref + (footprint (fresh items)).toNat)) = true ∧
      ∃ after', PushedForward axis (clamp64 (reach ref + (footprint (fresh items)).toNat)) after after' ∧
        ys = before ++ ref :: moveTo (fresh items) (clamp64 (reach ref)) :: after' ∧ position = before.length + 1 := by
  have hstop : addSat (stop ref) (footprint (fresh items)) = clamp64 (reach ref + (footprint (fresh items)).toNat) :=
    addSat_clamp64 _ _
  rw [insertAfter_eq hocc hgaps horder href, hstop]
  split
  · rename_i hfits
    have hnew : stop (moveTo (fresh items) (stop ref)) = clamp64 (reach ref + (footprint (fresh items)).toNat) := by
      rw [stop_moveTo (fresh_pos items) (by rw [hstop]; exact hs _ hfits), hstop]
    rw [hnew]
    refine decidedBy_eq_done_iff.trans ⟨?_, ?_⟩
    · rintro ⟨after', hpush, rfl, rfl⟩
      exact ⟨hfits, after', pushForward_eq_some_iff.1 hpush, rfl, rfl⟩
    · rintro ⟨-, after', hpush, rfl, rfl⟩
      exact ⟨after', pushForward_eq_some_iff.2 hpush, rfl, rfl⟩
  · rename_i hfits
    constructor
    · intro h
      exact absurd h Insertion.failed_ne_done
    · rintro ⟨h, -⟩
      exact absurd h hfits

theorem settle_fresh (free : Nat) (items after : List α) :
    settle free (fresh items :: after) = free :: settle (free + (footprint (fresh items)).toNat) after := by
  rw [settle, start_fresh, UInt64.toNat_zero, Nat.max_zero]

/-- What an insertion behind a reference makes of the new item and of those behind it:
the new one meets the reference, and the others stand behind it at the least starts. -/
structure PackedAfter (limit : Nat) (ref new : α) (after : List α) (x : α) (after' : List α) : Prop where
  kept : Kept new x
  meets : (start x).toNat = reach ref
  others : List.Forall₂ Kept after after'
  room : RoomAfter limit (reach ref) new after (starts after')
  least : ∀ ss, RoomAfter limit (reach ref) new after ss → List.Forall₂ (· ≤ ·) (starts after') ss

/-- What an insertion in front of a reference makes of the new item and of those before
it: the new one meets the reference, and the others stand in front of it at the greatest
starts. -/
structure PackedBefore (ref new : α) (before : List α) (x : α) (before' : List α) : Prop where
  kept : Kept new x
  meets : reach x = (start ref).toNat
  others : List.Forall₂ Kept before before'
  room : RoomBefore ((start ref).toNat - (footprint new).toNat) before (starts before')
  greatest : ∀ ss, RoomBefore ((start ref).toNat - (footprint new).toNat) before ss →
    List.Forall₂ (· ≤ ·) ss (starts before')

/-! ## Behind a reference -/

section
variable {axis : Axis} {limit : Nat} {selected : Option Nat} (hs : Suits axis α) (hsound : Sound limit items)
  (horder : inOrder items = before ++ ref :: after) (href : reference? items selected = some ref)
include hs hsound horder href

theorem exists_insertAfter {ss : List Nat} (haxis : ∀ n ≤ limit, axis.fits (clamp64 n) = true)
    (h : RoomAfter limit (reach ref) (fresh items) after ss) :
    ∃ ys position, insertAfter items selected axis = .done ys position := by
  obtain ⟨hstand, honward⟩ := h
  cases hstand with
  | cons hnew hbehind hstand =>
    have hpacked := settle_le hstand honward hbehind
    have hfits := forall₂_trans (T := fun x s => axis.fits (clamp64 (s + (footprint x).toNat)) = true)
      (fun x t s hxt hst => haxis _ (by omega)) hstand.within hpacked.flip
    obtain ⟨after', hpush⟩ := exists_pushedForward hfits
    exact ⟨_, _, (insertAfter_done_iff hs hsound.occupied hsound.gaps horder href).2
      ⟨haxis _ hnew, after', hpush, rfl, rfl⟩⟩

/-- A result is the new item and those behind it, packed from the end of the reference as
far as words go. -/
theorem insertAfter_settled {ys : List α} {position : Nat} (h : insertAfter items selected axis = .done ys position) :
    ∃ x after', ys = before ++ ref :: x :: after' ∧ position = before.length + 1 ∧
      List.Forall₂ Kept (fresh items :: after) (x :: after') ∧ (x :: after').Pairwise Before ∧
      List.Forall₂ (fun y s => start y = clamp64 s) (x :: after') (settle (reach ref) (fresh items :: after)) := by
  obtain ⟨hfits, after', hpush, rfl, rfl⟩ := (insertAfter_done_iff hs hsound.occupied hsound.gaps horder href).1 h
  have hocc := forall_mem_of_inOrder horder hsound.occupied
  have hgaps := hsound.gaps
  rw [horder, List.pairwise_append, List.pairwise_cons] at hgaps
  obtain ⟨-, ⟨-, hgap⟩, -⟩ := hgaps
  have hpos : ∀ x ∈ after, 0 < footprint x := fun x hx => hocc x (by simp [hx])
  have hord : after.Pairwise Before := hgap.imp before_of_reach
  have hnew := fresh_pos items
  have hfit : addSat (clamp64 (reach ref)) (footprint (fresh items)) ≤ Lawful.ceiling α := by
    rw [addSat_clamp64]
    exact hs _ hfits
  refine ⟨_, after', rfl, rfl, .cons (kept_moveTo hnew hfit) (hpush.kept hs hpos), ?_, ?_⟩
  · refine List.pairwise_cons.2 ⟨fun y hy => ?_, hpush.ordered hs hpos hord⟩
    rw [Before, stop_moveTo hnew hfit, addSat_clamp64]
    exact hpush.free_le hs hpos hord y hy
  · rw [settle_fresh]
    exact .cons (Lawful.start_moveTo _ _ hnew hfit) (hpush.settled hs hpos hgap)

theorem insertAfter_within {ys : List α} {position : Nat}
    (hexact : List.Forall₂ (fun x s => s + (footprint x).toNat ≤ limit) (fresh items :: after)
      (settle (reach ref) (fresh items :: after)))
    (h : insertAfter items selected axis = .done ys position) : ∀ x ∈ ys, reach x ≤ limit := by
  obtain ⟨x, after', rfl, -, hkept, -, hsettled⟩ := insertAfter_settled hs hsound horder href h
  have hin := forall_mem_of_inOrder horder hsound.within
  have hmoved : List.Forall₂ (fun y s => s + (footprint y).toNat ≤ limit) (x :: after')
      (settle (reach ref) (fresh items :: after)) :=
    forall₂_trans (fun y x s (hxy : Kept x y) hx => by rwa [hxy.footprint]) hkept.flip hexact
  have hreach := hmoved.mp (S := fun y _ => reach y ≤ limit) (fun y s hy hstart => by
    rw [reach, hstart, toNat_clamp64]
    omega) hsettled
  intro y hy
  rw [List.mem_append, List.mem_cons] at hy
  rcases hy with hy | rfl | hy
  · exact hin y (by simp [hy])
  · exact hin y (by simp)
  · obtain ⟨-, -, hy⟩ := exists_of_forall₂ hreach.flip y hy
    exact hy

/-- A result that keeps a limit is the least one. -/
theorem insertAfter_packed {ys : List α} {position : Nat} (hlim : limit ≤ max64)
    (h : insertAfter items selected axis = .done ys position) (hin : ∀ x ∈ ys, reach x ≤ limit) :
    ∃ x after', ys = before ++ ref :: x :: after' ∧ position = before.length + 1 ∧
      PackedAfter limit ref (fresh items) after x after' := by
  obtain ⟨x, after', rfl, rfl, hkept, hord, hsettled⟩ := insertAfter_settled hs hsound horder href h
  rw [settle_fresh, List.forall₂_cons] at hsettled
  obtain ⟨hstart, hsettled⟩ := hsettled
  have hmeets : (start x).toNat = reach ref := by
    have := hsound.within ref (mem_of_reference? href)
    rw [hstart, toNat_clamp64]
    omega
  have hstand : Stands limit (x :: after') (starts (x :: after')) :=
    stands_starts hord hlim fun y hy => hin y (List.mem_append_right _ (List.mem_cons_of_mem _ hy))
  have hcons : starts (x :: after') = reach ref :: starts after' := by rw [starts, List.map_cons, hmeets, starts]
  rw [hcons] at hstand
  obtain ⟨hnew, hothers⟩ := List.forall₂_cons.1 hkept
  refine ⟨x, after', rfl, rfl, hnew, hmeets, hothers, ⟨hstand.of_kept hkept, ?_⟩, ?_⟩
  · refine List.forall₂_map_right_iff.2 (forall₂_trans (fun a s y has hys => ?_) (settle_onward _ after) hsettled.flip)
    have hys : start y = clamp64 s := hys
    have := toNat_le_max64 (start a)
    rw [hys, toNat_clamp64]
    omega
  · rintro ss ⟨hroom, honward⟩
    cases hroom with
    | cons _ hbehind hroom =>
      have hle := settle_le hroom honward hbehind
      refine List.forall₂_map_left_iff.2 (forall₂_trans (fun y s t hys hst => ?_) hsettled hle)
      rw [hys, toNat_clamp64]
      omega

end

/-! ## In front of a reference -/

theorem PushedBackward.packed {limit : Nat} {free : UInt64} {before' : List α} (hsound : Sound limit items)
    (horder : inOrder items = before ++ ref :: after)
    (hfree : free.toNat + (footprint (fresh items)).toNat = (start ref).toNat)
    (hpush : PushedBackward free before.reverse before'.reverse) :
    PackedBefore ref (fresh items) before (moveTo (fresh items) free) before' := by
  have hpos := fresh_pos items
  obtain ⟨hceil, hfit⟩ := PushedBackward.room hfree (Lawful.start_le_ceiling ref)
  have hocc := forall_mem_of_inOrder horder hsound.occupied
  have hgaps := hsound.gaps
  rw [horder, List.pairwise_append] at hgaps
  have hoccB : ∀ x ∈ before, 0 < footprint x := fun x hx => hocc x (by simp [hx])
  have hoccR : ∀ x ∈ before.reverse, 0 < footprint x := fun x hx => hoccB x (List.mem_reverse.1 hx)
  have hordR : before.reverse.Pairwise fun x y => Before y x :=
    List.pairwise_reverse.2 (hgaps.1.imp before_of_reach)
  have hkept := List.forall₂_reverse_iff.1 (hpush.kept hoccR hceil)
  have hshift := List.forall₂_reverse_iff.1 (hpush.shift hoccR hceil)
  have hord := List.pairwise_reverse.1 (hpush.ordered hoccR hceil hordR)
  have hroom : (start ref).toNat - (footprint (fresh items)).toNat = free.toNat := by omega
  -- The new item covers something, so the items in front of it do not touch the ceiling.
  have hlt : free.toNat < max64 := by
    have := toNat_le_max64 (start ref)
    rw [UInt64.lt_iff_toNat_lt, UInt64.toNat_zero] at hpos
    omega
  have hin : ∀ y ∈ before', reach y ≤ free.toNat := by
    intro y hy
    have := UInt64.le_iff_toNat_le.1 (hpush.le_free hoccR hceil hordR y (List.mem_reverse.2 hy))
    rw [toNat_stop] at this
    omega
  refine ⟨kept_moveTo hpos hfit, ?_, hkept, ⟨?_, ?_⟩, ?_⟩
  · rw [reach, Lawful.start_moveTo _ _ hpos hfit, Lawful.footprint_moveTo _ _ hpos hfit]
    exact hfree
  · rw [hroom]
    exact (stands_starts hord (Nat.le_of_lt hlt) hin).of_kept hkept
  · exact List.forall₂_map_right_iff.2 (hshift.imp fun _ _ h => UInt64.le_iff_toNat_le.1 h)
  · intro ss hss
    rw [hroom] at hss
    obtain ⟨ys, hys, hle⟩ := exists_pushedBackward hss (Nat.le_refl _) hceil hoccB
    have hsame := (pushBackward_eq_some_iff.2 hpush).symm.trans (pushBackward_eq_some_iff.2 hys)
    rw [Option.some.injEq, List.reverse_inj] at hsame
    rwa [hsame]

end Tight

end Placed

/-! ## The editor -/

namespace Editor

open Placed

namespace Domain

/-- Where the items of a register end, and the last position that a word can name for
the others. -/
def limit : Domain → Nat
  | .fields width => width.toNat
  | _ => max64

theorem limit_le (d : Domain) : d.limit ≤ max64 := by
  cases d with
  | fields width => exact Nat.le_trans (toNat_le_max32 width) (Nat.le_of_lt max32_lt_max64)
  | registers => exact Nat.le_refl _
  | blocks => exact Nat.le_refl _

theorem fits_of_le_limit (d : Domain) {n : Nat} (h : n ≤ d.limit) : d.axis.fits (clamp64 n) = true := by
  cases d with
  | fields width =>
    have h : n ≤ width.toNat := h
    simp only [axis, Axis.bounded, Axis.fits, decide_eq_true_eq]
    rw [UInt64.le_iff_toNat_le, toNat_clamp64, toNat_clamp64]
    omega
  | registers => rfl
  | blocks => rfl

end Domain

/-- The exact positions of a new item behind a reference, and of the items that it pushes
on, are words. -/
def ExactAfter {α : Type} [Placed α] (ref new : α) (after : List α) : Prop :=
  List.Forall₂ (fun x s => s + (footprint x).toNat ≤ max64) (new :: after) (settle (reach ref) (new :: after))

/-- Insertion behind a reference is complete and least. It succeeds exactly when the new
item can stand at the end of the reference, and the items behind it somewhere further on,
within the limit; then they stand at the least starts, and else the limit is the reason and
the items are as they were. On an endless axis the exact positions are taken to be words. -/
theorem insertAfter_least (d : Domain) {items before after : List d.Item} {selected : Option Nat} {ref : d.Item}
    (hsound : Sound d.limit items) (href : reference? items selected = some ref)
    (horder : inOrder items = before ++ ref :: after)
    (hexact : d.axis = .unbounded → ExactAfter ref (fresh items) after) :
    ((∃ ys index, answer d items ⟨.after, selected⟩ = .done ys index) ↔
        ∃ ss, RoomAfter d.limit (reach ref) (fresh items) after ss) ∧
      ((∃ ss, RoomAfter d.limit (reach ref) (fresh items) after ss) →
        ∃ x after', answer d items ⟨.after, selected⟩ = .done (before ++ ref :: x :: after') (before.length + 1) ∧
          PackedAfter d.limit ref (fresh items) after x after') ∧
      ((¬ ∃ ss, RoomAfter d.limit (reach ref) (fresh items) after ss) →
        answer d items ⟨.after, selected⟩ = .failed items .outOfBounds) := by
  have hs := suits_axis d
  have hanswer : answer d items ⟨.after, selected⟩ = insertAfter items selected d.axis := answer_eq d items _
  rw [hanswer]
  have hin : ∀ ys index, insertAfter items selected d.axis = .done ys index → ∀ x ∈ ys, reach x ≤ d.limit := by
    intro ys index hr
    cases d with
    | fields width =>
      have hwidth : width.toNat + 1 ≤ max64 := Nat.lt_of_le_of_lt (toNat_le_max32 width) max32_lt_max64
      have hr : insert (Domain.fields width).axis .after items selected = .done ys index := hr
      obtain ⟨-, -, hfits⟩ := insert_sound hs hsound hwidth hr
      exact fun x hx => fits_fields_iff.1 (hfits (fun a ha => fits_fields_iff.2 (hsound.within a ha)) x hx)
    | registers => exact insertAfter_within hs hsound horder href (hexact rfl) hr
    | blocks => exact insertAfter_within hs hsound horder href (hexact rfl) hr
  have hpacked := fun ys index hr => insertAfter_packed hs hsound horder href d.limit_le hr (hin ys index hr)
  have hroom : (∃ ys index, insertAfter items selected d.axis = .done ys index) ↔
      ∃ ss, RoomAfter d.limit (reach ref) (fresh items) after ss := by
    constructor
    · rintro ⟨ys, index, hr⟩
      obtain ⟨x, after', -, -, h⟩ := hpacked ys index hr
      exact ⟨_, h.room⟩
    · rintro ⟨ss, hss⟩
      exact exists_insertAfter hs hsound horder href (fun n hn => d.fits_of_le_limit hn) hss
  refine ⟨hroom, fun h => ?_, fun h => ?_⟩
  · obtain ⟨ys, index, hr⟩ := hroom.2 h
    obtain ⟨x, after', rfl, rfl, hleast⟩ := hpacked ys index hr
    exact ⟨x, after', hr, hleast⟩
  · rcases insertAfter_cases items selected d.axis with ⟨ys, index, hr, -⟩ | ⟨e, hr⟩
    · exact absurd (hroom.1 ⟨ys, index, hr⟩) h
    · rw [hr, insertAfter_failed hsound.occupied hsound.gaps horder href hr]

/-- Registers given out of order. Two of those behind the first one are in the way. -/
theorem insertAfter_least_registers :
    let items : List RegisterDecl := [.ofOffset "c" 8, .ofOffset "d" 32, .ofOffset "a" 0, .ofOffset "b" 4]
    let moved : List RegisterDecl := [.ofOffset "b" 8, .ofOffset "c" 12, .ofOffset "d" 32]
    answer .registers items ⟨.after, some 2⟩ = .done (.ofOffset "a" 0 :: .ofOffset "reg1" 4 :: moved) 1 ∧
      PackedAfter max64 (RegisterDecl.ofOffset "a" 0) (fresh items)
        [.ofOffset "b" 4, .ofOffset "c" 8, .ofOffset "d" 32] (.ofOffset "reg1" 4) moved := by
  intro items moved
  have horder : inOrder items = [] ++ .ofOffset "a" 0 :: [.ofOffset "b" 4, .ofOffset "c" 8, .ofOffset "d" 32] := by cbv
  have hsound : Sound max64 (inOrder items) := by
    rw [horder]
    exact sound_of_ordered (by decide) (by unfold Before; decide) (Nat.le_refl _) (by decide)
  have hexact : ExactAfter (RegisterDecl.ofOffset "a" 0) (fresh items)
      [.ofOffset "b" 4, .ofOffset "c" 8, .ofOffset "d" 32] := by
    unfold ExactAfter
    decide
  have hok : answer .registers items ⟨.after, some 2⟩ = .done (.ofOffset "a" 0 :: .ofOffset "reg1" 4 :: moved) 1 := by
    cbv
  have href : reference? items (some 2) = some (.ofOffset "a" 0) := rfl
  obtain ⟨hroom, hleast, -⟩ :=
    insertAfter_least .registers (hsound.perm (inOrder_perm items)) href horder fun _ => hexact
  obtain ⟨x, after', hres, hpacked⟩ := hleast (hroom.1 ⟨_, _, hok⟩)
  rw [hok] at hres
  cases hres
  exact ⟨hok, hpacked⟩

/-- Insertion in front of a reference is complete and greatest. It is negative exactly when
the reference starts too early for the new item; else it is refused exactly when the items
before the reference cannot stand, none of them moved forward, between the start of the
axis and the new item; and else they stand at the greatest starts. -/
theorem insertBefore_greatest (d : Domain) {items before after : List d.Item} {index : Nat} {ref : d.Item}
    (hsound : Sound d.limit items) (hget : items[index]? = some ref)
    (horder : inOrder items = before ++ ref :: after) :
    (answer d items ⟨.before, some index⟩ = .failed items .negativeOffset ↔
        (start ref).toNat < (footprint (fresh items)).toNat) ∧
      ((footprint (fresh items)).toNat ≤ (start ref).toNat →
        (answer d items ⟨.before, some index⟩ = .failed items .occupied ↔
          ¬ ∃ ss, RoomBefore ((start ref).toNat - (footprint (fresh items)).toNat) before ss) ∧
        ((∃ ss, RoomBefore ((start ref).toNat - (footprint (fresh items)).toNat) before ss) →
          ∃ x before', answer d items ⟨.before, some index⟩ = .done (before' ++ x :: ref :: after) before.length ∧
            PackedBefore ref (fresh items) before x before')) := by
  have hanswer : answer d items ⟨.before, some index⟩ = insertBefore items (some index) := answer_eq d items _
  rw [hanswer]
  refine ⟨insertBefore_negative_iff hsound.occupied hsound.gaps horder hget, fun hle => ?_⟩
  obtain ⟨free, hsub⟩ : ∃ free, sub? (start ref) (footprint (fresh items)) = some free :=
    Option.ne_none_iff_exists'.1 fun h => absurd (sub?_eq_none_iff.1 h) (Nat.not_lt.2 hle)
  have hfree := sub?_eq_some_iff.1 hsub
  have hsuccess : (∃ ss, RoomBefore ((start ref).toNat - (footprint (fresh items)).toNat) before ss) →
      ∃ x before', insertBefore items (some index) = .done (before' ++ x :: ref :: after) before.length ∧
        PackedBefore ref (fresh items) before x before' := by
    rintro ⟨ss, hss⟩
    have hceil := (PushedBackward.room hfree (Lawful.start_le_ceiling ref)).1
    have hocc := forall_mem_of_inOrder horder hsound.occupied
    obtain ⟨before', hpush, -⟩ := exists_pushedBackward hss (by omega) hceil fun x hx => hocc x (by simp [hx])
    exact ⟨_, before', (insertBefore_done_iff hsound.occupied hsound.gaps horder hget hfree).2
      ⟨before', hpush, rfl, rfl⟩, hpush.packed hsound horder hfree⟩
  refine ⟨⟨?_, fun hroom => ?_⟩, hsuccess⟩
  · intro herr hroom
    obtain ⟨x, before', hres, -⟩ := hsuccess hroom
    rw [hres] at herr
    exact absurd herr Insertion.done_ne_failed
  · rcases insertBefore_cases items (some index) with ⟨ys, position, hres, -⟩ | ⟨e, hres⟩
    · obtain ⟨before', hpush, -⟩ := (insertBefore_done_iff hsound.occupied hsound.gaps horder hget hfree).1 hres
      exact absurd ⟨_, (hpush.packed hsound horder hfree).room⟩ hroom
    · rw [hres, insertBefore_failed hsound.occupied hsound.gaps horder hget hfree hres]

/-- Fields given out of order. The one before the reference is drawn back as far as the
first one lets it. -/
theorem insertBefore_greatest_fields :
    let items : List FieldDecl := [.ofSpan "c" 8 1, .ofSpan "a" 0 2, .ofSpan "b" 3 5]
    answer (.fields 32) items ⟨.before, some 0⟩ =
        .done [.ofSpan "a" 0 2, .ofSpan "b" 2 5, .ofSpan "field1" 7 1, .ofSpan "c" 8 1] 2 ∧
      PackedBefore (FieldDecl.ofSpan "c" 8 1) (fresh items) [.ofSpan "a" 0 2, .ofSpan "b" 3 5]
        (.ofSpan "field1" 7 1) [.ofSpan "a" 0 2, .ofSpan "b" 2 5] := by
  intro items
  have horder : inOrder items = [.ofSpan "a" 0 2, .ofSpan "b" 3 5] ++ .ofSpan "c" 8 1 :: [] := by cbv
  have hsound : Sound 32 (inOrder items) := by
    rw [horder]
    exact sound_of_ordered (by decide) (by unfold Before; decide) (by decide) (by decide)
  have hok : answer (.fields 32) items ⟨.before, some 0⟩ =
      .done [.ofSpan "a" 0 2, .ofSpan "b" 2 5, .ofSpan "field1" 7 1, .ofSpan "c" 8 1] 2 := by cbv
  have hroom : RoomBefore 7 ([.ofSpan "a" 0 2, .ofSpan "b" 3 5] : List FieldDecl) [0, 2] :=
    ⟨.cons (by decide) (by decide) (.cons (by decide) (by decide) .nil), by decide⟩
  have hget : items[0]? = some (.ofSpan "c" 8 1) := rfl
  obtain ⟨-, hgreatest⟩ := insertBefore_greatest (.fields 32) (hsound.perm (inOrder_perm items)) hget horder
  obtain ⟨x, before', hres, hpacked⟩ := (hgreatest (by decide)).2 ⟨[0, 2], hroom⟩
  rw [hok] at hres
  have hitems : [.ofSpan "a" 0 2, .ofSpan "b" 2 5] ++ [.ofSpan "field1" 7 1, .ofSpan "c" 8 1] =
      before' ++ [x, .ofSpan "c" 8 1] := (Insertion.done_inj.1 hres).1
  obtain ⟨rfl, hx⟩ := List.append_inj hitems hpacked.others.length_eq
  cases hx
  exact ⟨hok, hpacked⟩

end Editor

end CoreForge
