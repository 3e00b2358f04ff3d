import CoreForge.Proofs.Placement
/-!
# One insertion

An insertion makes a list with a new item, on one side of the reference, or it leaves the
items as they are (`insertAfter_cases`, `insertBefore_cases`).
`Sound` is the invariant of the editor: items cover something, have no position in
common, and stop within a limit. `Splice` says what an insertion makes of the items in
order, and `Inserted` what its caller sees of it. `insert_sound`: a successful insertion
does that and keeps the invariant, with the limit raised by the size of the new item.
-/

namespace CoreForge

open CoreForge.Number

/-- A success does what the successes in all its cases do. -/
theorem Insertion.of_done {α : Type} {r : Insertion α} {items ys : List α} {index : Nat} {p : List α → Nat → Prop}
    (hcases : (∃ ys index, r = .done ys index ∧ p ys index) ∨ ∃ e, r = .failed items e)
    (h : r = .done ys index) : p ys index := by
  rcases hcases with ⟨ys', index', hdone, hp⟩ | ⟨e, hfailed⟩
  · rw [h, done_inj] at hdone
    obtain ⟨rfl, rfl⟩ := hdone
    exact hp
  · rw [h] at hfailed
    exact absurd hfailed done_ne_failed

namespace Placed

/-- Which side of the reference an item is inserted on. -/
inductive Side
  | after
  | before
deriving DecidableEq, Repr

/-- The item that an insertion refers to: the selected one, or the last one of the list
when none is selected. -/
def reference? {α : Type} (items : List α) (selected : Option Nat) : Option α :=
  match selected with
  | some index => items[index]?
  | none => items.getLast?

theorem mem_of_reference? {α : Type} {items : List α} {selected : Option Nat} {ref : α}
    (h : reference? items selected = some ref) : ref ∈ items := by
  cases selected with
  | none => exact List.mem_of_getLast? h
  | some index => exact List.mem_of_getElem? h

section Cases
variable {α : Type} [Placed α]

/-! ## The items in order -/

/-- The items by start, those with the same start in the order of the list. -/
def inOrder (items : List α) : List α := items.mergeSort fun x y => start x ≤ start y

/-- The new item of an insertion, before it is placed. -/
def fresh (items : List α) : α := create (nextName items) 0

theorem inOrder_perm (items : List α) : (inOrder items).Perm items := List.mergeSort_perm _ _

/-- What holds of all items holds of all of them in order. -/
theorem forall_mem_of_inOrder {items sorted : List α} {p : α → Prop} (horder : inOrder items = sorted)
    (h : ∀ x ∈ items, p x) : ∀ x ∈ sorted, p x := by
  rw [← horder]
  exact fun x hx => h x ((inOrder_perm items).subset hx)

theorem inOrder_ascending (items : List α) : (inOrder items).Pairwise fun x y => start x ≤ start y :=
  ascending_mergeSort start items

theorem map_fst_arranged (items : List α) : (arranged items).map (·.1) = inOrder items := by
  have h := List.map_mergeSort (f := Prod.fst) (r := fun x y : α × Nat => decide (start x.1 ≤ start y.1))
    (s := fun x y => decide (start x ≤ start y)) (l := items.zipIdx) fun _ _ _ _ => rfl
  rw [List.zipIdx_map_fst] at h
  exact h

/-- Dividing finds the selected item, and its parts are the items in order. -/
theorem divide?_eq_some {items before after : List α} {selected : Nat} {ref : α}
    (h : divide? items selected = some (before, ref, after)) :
    items[selected]? = some ref ∧ inOrder items = before ++ ref :: after := by
  unfold divide? at h
  simp only at h
  split at h
  · cases h
  · rename_i x rest hdrop
    simp only [Option.some.injEq, Prod.mk.injEq] at h
    obtain ⟨rfl, rfl, rfl⟩ := h
    have hsplit := List.takeWhile_append_dropWhile (p := fun x : α × Nat => decide (x.2 ≠ selected))
      (l := arranged items)
    rw [hdrop] at hsplit
    constructor
    · have hx : x.2 = selected := by
        have := List.head?_dropWhile_not (fun x : α × Nat => decide (x.2 ≠ selected)) (arranged items)
        rw [hdrop] at this
        simpa using this
      have hmem : x ∈ items.zipIdx := by
        have : x ∈ arranged items := by
          rw [← hsplit]
          simp
        exact (List.mergeSort_perm _ _).mem_iff.1 this
      rw [← hx]
      exact List.mem_zipIdx_iff_getElem?.1 hmem
    · have hmap := congrArg (List.map Prod.fst) hsplit
      rw [List.map_append, List.map_cons] at hmap
      rw [← map_fst_arranged]
      exact hmap.symm

/-! ## What an insertion gives -/

/-- Inserts a new item on one side of the reference. -/
def insert (axis : Axis) (side : Side) (items : List α) (selected : Option Nat) : Insertion α :=
  match side with
  | .after => insertAfter items selected axis
  | .before => insertBefore items selected

/-- A new item in an empty list, or behind the reference with the items after it pushed on. -/
def MadeAfter (items : List α) (selected : Option Nat) (axis : Axis) (ys : List α) (index : Nat) : Prop :=
  (items = [] ∧ selected = none ∧ axis.fits (footprint (fresh items)) = true ∧ ys = [fresh items] ∧ index = 0) ∨
    ∃ before ref after after', reference? items selected = some ref ∧ inOrder items = before ++ ref :: after ∧
      axis.fits (addSat (stop ref) (footprint (fresh items))) = true ∧
      PushedForward axis (stop (moveTo (fresh items) (stop ref))) after after' ∧
      ys = before ++ ref :: moveTo (fresh items) (stop ref) :: after' ∧ index = before.length + 1

/-- A new item in front of the reference, with the items before it pushed back. -/
def MadeBefore (items : List α) (selected : Option Nat) (ys : List α) (index : Nat) : Prop :=
  ∃ before ref after before' free, selected ≠ none ∧ reference? items selected = some ref ∧
    inOrder items = before ++ ref :: after ∧ free.toNat + (footprint (fresh items)).toNat = (start ref).toNat ∧
    PushedBackward free before.reverse before'.reverse ∧
    ys = before' ++ moveTo (fresh items) free :: ref :: after ∧ index = before.length

/-- An insertion succeeds, or it leaves the items as they are, whatever has been pushed. -/
theorem insertAfter_cases (items : List α) (selected : Option Nat) (axis : Axis) :
    (∃ ys index, insertAfter items selected axis = .done ys index ∧ MadeAfter items selected axis ys index) ∨
      ∃ e, insertAfter items selected axis = .failed items e := by
  unfold insertAfter
  simp only
  split
  · split
    · exact .inr ⟨_, rfl⟩
    · split
      · rename_i hfits
        exact .inl ⟨_, _, rfl, .inl ⟨rfl, rfl, hfits, rfl, rfl⟩⟩
      · exact .inr ⟨_, rfl⟩
  · rename_i y others
    split
    · exact .inr ⟨_, rfl⟩
    · rename_i before ref after hdiv
      obtain ⟨hget, horder⟩ := divide?_eq_some hdiv
      have href : reference? (y :: others) selected = some ref := by
        cases selected with
        | some index => exact hget
        | none => simpa [reference?, List.getLast?_eq_getElem?] using hget
      split
      · rename_i hfits
        split
        · rename_i after' hpush
          exact .inl ⟨_, _, rfl,
            .inr ⟨before, ref, after, after', href, horder, hfits, pushForward_eq_some_iff.1 hpush, rfl, rfl⟩⟩
        · exact .inr ⟨_, rfl⟩
      · exact .inr ⟨_, rfl⟩

theorem insertBefore_cases (items : List α) (selected : Option Nat) :
    (∃ ys index, insertBefore items selected = .done ys index ∧ MadeBefore items selected ys index) ∨
      ∃ e, insertBefore items selected = .failed items e := by
  unfold insertBefore
  split
  · exact .inr ⟨_, rfl⟩
  · split
    · exact .inr ⟨_, rfl⟩
    · rename_i before ref after hdiv
      obtain ⟨hget, horder⟩ := divide?_eq_some hdiv
      simp only
      split
      · exact .inr ⟨_, rfl⟩
      · rename_i free hfree
        split
        · rename_i back hpush
          have hback : PushedBackward free before.reverse back.reverse.reverse := by
            rw [List.reverse_reverse]
            exact pushBackward_eq_some_iff.1 hpush
          exact .inl ⟨_, _, rfl, before, ref, after, back.reverse, free, by simp, hget, horder,
            sub?_eq_some_iff.1 hfree, hback, rfl, rfl⟩
        · exact .inr ⟨_, rfl⟩

theorem insert_cases (axis : Axis) (side : Side) (items : List α) (selected : Option Nat) :
    (∃ ys index, insert axis side items selected = .done ys index) ∨
      ∃ e, insert axis side items selected = .failed items e :=
  match side with
  | .after => (insertAfter_cases items selected axis).imp_left fun ⟨ys, index, h, _⟩ => ⟨ys, index, h⟩
  | .before => (insertBefore_cases items selected).imp_left fun ⟨ys, index, h, _⟩ => ⟨ys, index, h⟩

theorem insertAfter_done {items ys : List α} {selected : Option Nat} {axis : Axis} {index : Nat}
    (h : insertAfter items selected axis = .done ys index) : MadeAfter items selected axis ys index :=
  Insertion.of_done (insertAfter_cases items selected axis) h

theorem insertBefore_done {items ys : List α} {selected : Option Nat} {index : Nat}
    (h : insertBefore items selected = .done ys index) : MadeBefore items selected ys index :=
  Insertion.of_done (insertBefore_cases items selected) h

end Cases

/-! ## The invariant -/

section Soundness
variable {α : Type} [Placed α]

/-- Items that cover something, have no position in common and stop within a limit. -/
structure Sound (limit : Nat) (items : List α) : Prop where
  occupied : ∀ x ∈ items, 0 < footprint x
  apart : items.Pairwise Apart
  within : ∀ x ∈ items, reach x ≤ limit

theorem Sound.perm {limit : Nat} {xs ys : List α} (h : Sound limit xs) (hp : xs.Perm ys) : Sound limit ys :=
  ⟨fun x hx => h.occupied x (hp.mem_iff.2 hx), (hp.pairwise_iff fun h => h.symm).1 h.apart,
    fun x hx => h.within x (hp.mem_iff.2 hx)⟩

/-- The exact form of the order of sound items. -/
theorem Sound.gaps {limit : Nat} {items : List α} (h : Sound limit items) :
    (inOrder items).Pairwise fun x y => reach x ≤ (start y).toNat := by
  have hperm := inOrder_perm items
  have hapart : (inOrder items).Pairwise Apart := (h.perm hperm.symm).apart
  refine (hapart.and (inOrder_ascending items)).imp_of_mem fun hx hy hxy => ?_
  exact hxy.1.reach_le hxy.2 (h.occupied _ (hperm.subset hy))

/-- Items that are before each other as far as words tell are sound when none stops
beyond the largest word. -/
theorem sound_of_ordered {limit : Nat} {items : List α} (hocc : ∀ x ∈ items, 0 < footprint x)
    (hord : items.Pairwise Before) (hlim : limit ≤ max64) (hin : ∀ x ∈ items, reach x ≤ limit) : Sound limit items := by
  refine ⟨hocc, hord.imp_of_mem fun hx _ hxy => ?_, hin⟩
  exact apart_of_reach (hxy.reach_le (Nat.le_trans (hin _ hx) hlim))

end Soundness

/-! ## What a successful insertion does -/

theorem exists_of_forall₂ {α β : Type} {R : α → β → Prop} {xs : List α} {ys : List β} (h : List.Forall₂ R xs ys) :
    ∀ y ∈ ys, ∃ x ∈ xs, R x y := by
  induction h with
  | nil => simp
  | cons hxy _ ih =>
    intro y hy
    rcases List.mem_cons.1 hy with rfl | hy
    · exact ⟨_, by simp, hxy⟩
    · obtain ⟨x, hx, hxy⟩ := ih y hy
      exact ⟨x, by simp [hx], hxy⟩

section Effect
variable {α : Type} [Placed α] [Lawful α]

theorem footprint_fresh (items : List α) : footprint (fresh items) = Lawful.freshSize α :=
  Lawful.footprint_create _ _

theorem start_fresh (items : List α) : start (fresh items) = 0 := Lawful.start_create _

theorem stop_fresh (items : List α) : stop (fresh items) = footprint (fresh items) := by
  rw [stop, start_fresh]
  exact addSat_of_toNat (by rw [UInt64.toNat_zero, Nat.zero_add])

theorem fresh_pos (items : List α) : 0 < footprint (fresh items) := by
  rw [footprint_fresh]
  exact Lawful.freshSize_pos

theorem stop_le_stop {x y : α} (hk : Kept x y) (h : start y ≤ start x) : stop y ≤ stop x := by
  rw [UInt64.le_iff_toNat_le] at *
  rw [toNat_stop, toNat_stop, reach, reach, hk.footprint]
  omega

/-- A successful insertion of `x`: of the items in order, those in front of the new one
are kept or moved backward, those behind it are kept or moved forward by at most its
size, no two of the result get past each other, and all stay on the axis. -/
structure Splice (axis : Axis) (items ys front back front' back' : List α) (x : α) : Prop where
  old : inOrder items = front ++ back
  result : ys = front' ++ x :: back'
  kind : Kept (fresh items) x
  backward : List.Forall₂ (fun a b => Kept a b ∧ start b ≤ start a) front front'
  forward : List.Forall₂ (fun a b => Kept a b ∧ (start b).toNat ≤ (start a).toNat + (Lawful.freshSize α).toNat)
    back back'
  behind : ∀ b ∈ back, start x ≤ start b
  ordered : (front' ++ x :: back').Pairwise Before
  fits : (∀ a ∈ items, axis.fits (stop a) = true) → ∀ b ∈ ys, axis.fits (stop b) = true

section
variable {items ys : List α} {selected : Option Nat} {index : Nat}
  (hocc : ∀ x ∈ items, 0 < footprint x) (hgaps : (inOrder items).Pairwise fun x y => reach x ≤ (start y).toNat)
include hocc hgaps

theorem insertAfter_splice {axis : Axis} (hs : Suits axis α) (h : insertAfter items selected axis = .done ys index) :
    ∃ front back front' back' x, Splice axis items ys front back front' back' x ∧ index = front'.length ∧
      ((items = [] ∧ selected = none ∧ start x = 0) ∨
        ∃ ref, reference? items selected = some ref ∧ start x = stop ref) := by
  rcases insertAfter_done h with
    ⟨rfl, rfl, hfits, rfl, rfl⟩ | ⟨before, ref, after, after', href, horder, hfits, hpush, rfl, rfl⟩
  · refine ⟨[], [], [], [], fresh [], ⟨List.mergeSort_nil, rfl, .refl _, .nil, .nil, by simp, by simp, fun _ => ?_⟩,
      rfl, .inl ⟨rfl, rfl, start_fresh []⟩⟩
    simp only [List.mem_singleton, forall_eq, stop_fresh]
    exact hfits
  · have hfit := hs _ hfits
    have hpos := fresh_pos items
    have hstart := Lawful.start_moveTo _ _ hpos hfit
    have hocc' := forall_mem_of_inOrder horder hocc
    rw [horder, List.pairwise_append, List.pairwise_cons] at hgaps
    obtain ⟨hbefore, ⟨hafter, hgaps'⟩, hcross⟩ := hgaps
    have hoccA : ∀ x ∈ after, 0 < footprint x := fun x hx => hocc' x (by simp [hx])
    have hordA : after.Pairwise Before := hgaps'.imp before_of_reach
    -- Nothing behind the reference starts before the reference stops.
    have hbehind : ∀ b ∈ after, stop ref ≤ start b := fun b hb => before_of_reach (hafter b hb)
    have hshift := hpush.shift hs hoccA hgaps' (Lawful.freshSize α).toNat fun b hb => by
      have hle := UInt64.le_iff_toNat_le.1 (hbehind b hb)
      rw [stop_moveTo hpos hfit, toNat_addSat, footprint_fresh]
      omega
    refine ⟨before ++ [ref], after, before ++ [ref], after', moveTo (fresh items) (stop ref),
      ⟨by simp [horder], by simp, kept_moveTo hpos hfit, ?_, ?_, ?_, ?_, fun hold => ?_⟩, by simp,
      .inr ⟨ref, href, hstart⟩⟩
    · exact List.forall₂_same.2 fun a _ => ⟨.refl a, UInt64.le_refl _⟩
    · exact (hpush.kept hs hoccA).mp (fun _ _ hk hd => ⟨hk, hd⟩) hshift
    · rw [hstart]
      exact hbehind
    · have hfront : (before ++ [ref]).Pairwise Before := by
        refine pairwise_before_middle (hbefore.imp before_of_reach) .nil (fun a ha => ?_) (by simp)
        exact before_of_reach (hcross a ha ref (by simp))
      refine pairwise_before_middle hfront (hpush.ordered hs hoccA hordA) (fun a ha => ?_) (hpush.free_le hs hoccA hordA)
      rw [Before, hstart]
      rcases List.mem_append.1 ha with ha | ha
      · exact UInt64.le_trans (before_of_reach (hcross a ha ref (by simp))) (start_le_stop ref)
      · rw [List.mem_singleton.1 ha]
        exact UInt64.le_refl _
    · have hold' := forall_mem_of_inOrder horder hold
      intro b hb
      simp only [List.mem_append, List.mem_cons] at hb
      rcases hb with hb | rfl | rfl | hb
      · exact hold' b (by simp [hb])
      · exact hold' b (by simp)
      · rw [stop_moveTo hpos hfit]
        exact hfits
      · exact hpush.fits hs hoccA (fun a ha => hold' a (by simp [ha])) b hb

theorem insertBefore_splice (axis : Axis) (h : insertBefore items selected = .done ys index) :
    ∃ front back front' back' x, Splice axis items ys front back front' back' x ∧ index = front'.length ∧
      ∃ ref, selected ≠ none ∧ reference? items selected = some ref ∧ reach x = (start ref).toNat := by
  obtain ⟨before, ref, after, before', free, hsel, href, horder, hfree, hpush, rfl, rfl⟩ := insertBefore_done h
  have hpos := fresh_pos items
  obtain ⟨hceil, hfit⟩ := PushedBackward.room hfree (Lawful.start_le_ceiling ref)
  have hstart := Lawful.start_moveTo _ _ hpos hfit
  have hocc' := forall_mem_of_inOrder horder hocc
  rw [horder, List.pairwise_append] at hgaps
  obtain ⟨hbefore, hback, hcross⟩ := hgaps
  have hoccB : ∀ x ∈ before.reverse, 0 < footprint x := fun x hx => hocc' x (by simp [List.mem_reverse.1 hx])
  have hordB : before.reverse.Pairwise fun x y => Before y x :=
    List.pairwise_reverse.2 (hbefore.imp before_of_reach)
  have hordR : (ref :: after).Pairwise Before := hback.imp before_of_reach
  have hstop : stop (moveTo (fresh items) free) = start ref := by
    rw [stop_moveTo hpos hfit, addSat_of_toNat hfree]
  have hmoves := List.forall₂_reverse_iff.1
    ((hpush.kept hoccB hceil).mp (fun _ _ hk hd => And.intro hk hd) (hpush.shift hoccB hceil))
  have hlen : before.length = before'.length := by simpa using (hpush.kept hoccB hceil).length_eq
  refine ⟨before, ref :: after, before', ref :: after, moveTo (fresh items) free,
    ⟨horder, rfl, kept_moveTo hpos hfit, hmoves, ?_, ?_, ?_, fun hold => ?_⟩, hlen, ref, hsel, href, ?_⟩
  · exact List.forall₂_same.2 fun a _ => ⟨.refl a, Nat.le_add_right _ _⟩
  · have hle : start (moveTo (fresh items) free) ≤ start ref := by
      rw [← hstop]
      exact start_le_stop _
    intro b hb
    rcases List.mem_cons.1 hb with rfl | hb
    · exact hle
    · have hafter := before_of_reach (List.rel_of_pairwise_cons hback hb)
      exact UInt64.le_trans hle (UInt64.le_trans (start_le_stop ref) hafter)
  · refine pairwise_before_middle (List.pairwise_reverse.1 (hpush.ordered hoccB hceil hordB)) hordR (fun a ha => ?_) ?_
    · rw [Before, hstart]
      exact hpush.le_free hoccB hceil hordB a (List.mem_reverse.2 ha)
    · intro b hb
      rw [Before, hstop]
      rcases List.mem_cons.1 hb with rfl | hb
      · exact UInt64.le_refl _
      · exact UInt64.le_trans (start_le_stop ref) (List.rel_of_pairwise_cons hordR hb)
  · have hold' := forall_mem_of_inOrder horder hold
    intro b hb
    rcases List.mem_append.1 hb with hb | hb
    · obtain ⟨a, ha, hk, hle⟩ := exists_of_forall₂ hmoves b hb
      exact fits_of_le (stop_le_stop hk hle) (hold' a (by simp [ha]))
    · rcases List.mem_cons.1 hb with rfl | hb
      · rw [hstop]
        exact fits_of_le (start_le_stop ref) (hold' ref (by simp))
      · exact hold' b (by simp [hb])
  · rw [reach, hstart, Lawful.footprint_moveTo _ _ hpos hfit]
    exact hfree

end

namespace Splice
variable {axis : Axis} {limit : Nat} {items ys front back front' back' : List α} {x : α}

/-- The result has the new item, and old ones at most as far on as the new one is large. -/
theorem mem_items (h : Splice axis items ys front back front' back' x) : ∀ b ∈ ys, b = x ∨
    ∃ a ∈ items, Kept a b ∧ (start b).toNat ≤ (start a).toNat + (Lawful.freshSize α).toNat := by
  have hold := forall_mem_of_inOrder h.old fun _ ha => ha
  intro b hb
  rw [h.result, List.mem_append, List.mem_cons] at hb
  rcases hb with hb | rfl | hb
  · obtain ⟨a, ha, hk, hle⟩ := exists_of_forall₂ h.backward b hb
    refine .inr ⟨a, hold a (List.mem_append_left _ ha), hk, ?_⟩
    exact Nat.le_trans (UInt64.le_iff_toNat_le.1 hle) (Nat.le_add_right _ _)
  · exact .inl rfl
  · obtain ⟨a, ha, hk, hle⟩ := exists_of_forall₂ h.forward b hb
    exact .inr ⟨a, hold a (List.mem_append_right _ ha), hk, hle⟩

theorem sound (h : Splice axis items ys front back front' back' x) (hsound : Sound limit items)
    (hlim : limit + (Lawful.freshSize α).toNat ≤ max64) (hx : reach x ≤ limit + (Lawful.freshSize α).toNat) :
    Sound (limit + (Lawful.freshSize α).toNat) ys := by
  have hnew : ∀ b ∈ ys, 0 < footprint b ∧ reach b ≤ limit + (Lawful.freshSize α).toNat := by
    intro b hb
    rcases h.mem_items b hb with rfl | ⟨a, ha, hk, hle⟩
    · rw [h.kind.footprint]
      exact ⟨fresh_pos items, hx⟩
    · have hreach := hsound.within a ha
      rw [reach] at hreach
      rw [reach, hk.footprint]
      exact ⟨hsound.occupied a ha, by omega⟩
  refine sound_of_ordered (fun b hb => (hnew b hb).1) ?_ hlim fun b hb => (hnew b hb).2
  rw [h.result]
  exact h.ordered

theorem others (h : Splice axis items ys front back front' back' x) :
    List.Forall₂ Kept (inOrder items) (ys.eraseIdx front'.length) := by
  rw [h.old, h.result]
  simp only [List.eraseIdx_append_of_length_le (Nat.le_refl _), Nat.sub_self, List.eraseIdx_cons_zero]
  exact List.rel_append (h.backward.imp fun _ _ h => h.1) (h.forward.imp fun _ _ h => h.1)

theorem sorted (h : Splice axis items ys front back front' back' x) :
    ys.Pairwise fun a b => start a ≤ start b := by
  rw [h.result]
  exact h.ordered.imp fun hab => UInt64.le_trans (start_le_stop _) hab

theorem getElem?_index (h : Splice axis items ys front back front' back' x) : ys[front'.length]? = some x := by
  rw [h.result]
  simp

end Splice

/-! ## The effect of an insertion -/

/-- Where a new item stands: at the very start of an empty axis, or with its start at
the end of the reference, or with its end at the start of the reference. -/
def Side.Meets (side : Side) (items : List α) (selected : Option Nat) (x : α) : Prop :=
  match side with
  | .after =>
    (items = [] ∧ selected = none ∧ start x = 0) ∨
      ∃ ref, reference? items selected = some ref ∧ (start x).toNat = reach ref
  | .before => ∃ ref, selected ≠ none ∧ reference? items selected = some ref ∧ reach x = (start ref).toNat

/-- One new item is found at the index and meets the reference, the others are the old
ones in their order, each maybe at another place, and all are sorted by start. -/
structure Inserted (side : Side) (items : List α) (selected : Option Nat) (ys : List α) (index : Nat) : Prop where
  new : ∃ x, ys[index]? = some x ∧ Kept (fresh items) x ∧ side.Meets items selected x
  others : List.Forall₂ Kept (inOrder items) (ys.eraseIdx index)
  sorted : ys.Pairwise fun x y => start x ≤ start y

/-- A successful insertion into sound items does what it should and leaves sound items,
with room for the new one added to the limit. None leaves the axis. -/
theorem insert_sound {axis : Axis} {side : Side} {limit index : Nat} {items ys : List α} {selected : Option Nat}
    (hs : Suits axis α) (hsound : Sound limit items) (hlim : limit + (Lawful.freshSize α).toNat ≤ max64)
    (h : insert axis side items selected = .done ys index) :
    Inserted side items selected ys index ∧ Sound (limit + (Lawful.freshSize α).toNat) ys ∧
      ((∀ a ∈ items, axis.fits (stop a) = true) → ∀ b ∈ ys, axis.fits (stop b) = true) := by
  have hgaps := hsound.gaps
  cases side with
  | after =>
    obtain ⟨front, back, front', back', x, hsplice, rfl, hmeets⟩ := insertAfter_splice hsound.occupied hgaps hs h
    have hfoot : footprint x = Lawful.freshSize α := by rw [hsplice.kind.footprint, footprint_fresh]
    have hmeets' : Side.after.Meets items selected x := by
      rcases hmeets with hempty | ⟨ref, href, hx⟩
      · exact .inl hempty
      · have hreach := hsound.within ref (mem_of_reference? href)
        refine .inr ⟨ref, href, ?_⟩
        rw [hx, toNat_stop]
        omega
    have hreach : reach x ≤ limit + (Lawful.freshSize α).toNat := by
      rcases hmeets' with ⟨-, -, h0⟩ | ⟨ref, href, hx⟩
      · rw [reach, h0, hfoot, UInt64.toNat_zero]
        omega
      · have := hsound.within ref (mem_of_reference? href)
        rw [reach, hx, hfoot]
        omega
    exact ⟨⟨⟨x, hsplice.getElem?_index, hsplice.kind, hmeets'⟩, hsplice.others, hsplice.sorted⟩,
      hsplice.sound hsound hlim hreach, hsplice.fits⟩
  | before =>
    obtain ⟨front, back, front', back', x, hsplice, rfl, ref, hsel, href, hx⟩ :=
      insertBefore_splice hsound.occupied hgaps axis h
    have hreach : reach x ≤ limit + (Lawful.freshSize α).toNat := by
      have := hsound.within ref (mem_of_reference? href)
      rw [reach] at this
      omega
    exact ⟨⟨⟨x, hsplice.getElem?_index, hsplice.kind, ref, hsel, href, hx⟩, hsplice.others, hsplice.sorted⟩,
      hsplice.sound hsound hlim hreach, hsplice.fits⟩

end Effect

end Placed

end CoreForge
