import CoreForge.Proofs.LeastMoves
/-!
# The ends of the axes

The axis of a register ends at its width, that of addresses does not end.
`FieldDecl.insertField_within_iff` says of any fields, sound or not, when a new one lies
within its register: always behind a reference, and in front of one exactly when the
reference starts within. `Editor.insertAfter_endless`: behind a reference at any address
an insertion succeeds, and the items that are pushed past the largest word stop there.
-/

namespace CoreForge

open CoreForge.Number

namespace Placed

theorem PushedBackward.length_eq {α : Type} [Placed α] {free : UInt64} {xs ys : List α}
    (h : PushedBackward free xs ys) : xs.length = ys.length := by
  induction h with
  | nil => rfl
  | stay _ => rfl
  | move _ _ _ ih => rw [List.length_cons, List.length_cons, ih]

end Placed

/-! ## Fields within their register -/

namespace FieldDecl

open Placed Editor

/-- The field ends within a register of some width. -/
def Within (f : FieldDecl) (width : UInt32) : Prop :=
  f.span.offset.toNat + f.span.width.toNat ≤ width.toNat

theorem reach_eq (f : FieldDecl) : reach f = f.span.offset.toNat + f.span.width.toNat :=
  congrArg₂ (· + ·) (toNat_clamp64_word32 _) (toNat_clamp64_word32 _)

theorem start_eq (f : FieldDecl) : (start f).toNat = f.span.offset.toNat := toNat_clamp64_word32 _

theorem fits_stop_iff {f : FieldDecl} {width : UInt32} :
    (Domain.fields width).axis.fits (stop f) = true ↔ f.Within width := by
  rw [Within, ← reach_eq]
  exact fits_fields_iff

/-- A field that is inserted behind another one lies within the register, wherever the
others are. -/
theorem insertFieldAfter_within {fields ys : List FieldDecl} {selected : Option Nat} {width : UInt32} {index : Nat}
    (h : insertFieldAfter fields selected width = .done ys index) : ∃ f, ys[index]? = some f ∧ f.Within width := by
  rcases insertAfter_done h with ⟨rfl, -, hfits, rfl, rfl⟩ | ⟨before, ref, after, after', -, -, hfits, -, rfl, rfl⟩
  · refine ⟨_, rfl, fits_stop_iff.1 ?_⟩
    rw [stop_fresh]
    exact hfits
  · refine ⟨moveTo (fresh fields) (stop ref), by simp, fits_stop_iff.1 ?_⟩
    rw [stop_moveTo (fresh_pos fields) (suits_axis (.fields width) _ hfits)]
    exact hfits

/-- A field that is inserted in front of another one ends where that one starts. -/
theorem insertFieldBefore_meets {fields ys : List FieldDecl} {selected : Option Nat} {index : Nat}
    (h : insertFieldBefore fields selected = .done ys index) :
    ∃ f ref, ys[index]? = some f ∧ reference? fields selected = some ref ∧
      f.span.offset.toNat + f.span.width.toNat = ref.span.offset.toNat := by
  obtain ⟨before, ref, after, before', free, -, href, -, hfree, hpush, rfl, rfl⟩ := insertBefore_done h
  have hlen : before.length = before'.length := by simpa using hpush.length_eq
  obtain ⟨-, hfit⟩ := PushedBackward.room hfree (Lawful.start_le_ceiling ref)
  refine ⟨moveTo (fresh fields) free, ref, by simp [hlen], href, ?_⟩
  rw [← reach_eq, ← start_eq, ← hfree, reach, Lawful.start_moveTo _ _ (fresh_pos fields) hfit,
    Lawful.footprint_moveTo _ _ (fresh_pos fields) hfit]

/-- When a new field lies within its register, whatever the other fields are: behind a
reference always, and in front of one exactly when the reference starts within. -/
theorem insertField_within_iff (fields : List FieldDecl) (selected : Option Nat) (width : UInt32) :
    (∀ ys index, insertFieldAfter fields selected width = .done ys index → ∃ f, ys[index]? = some f ∧ f.Within width) ∧
      ∀ ys index, insertFieldBefore fields selected = .done ys index →
        ∃ f ref, ys[index]? = some f ∧ reference? fields selected = some ref ∧
          (f.Within width ↔ ref.span.offset.toNat ≤ width.toNat) := by
  refine ⟨fun ys index h => insertFieldAfter_within h, fun ys index h => ?_⟩
  obtain ⟨f, ref, hnew, href, hmeets⟩ := insertFieldBefore_meets h
  exact ⟨f, ref, hnew, href, by rw [Within, hmeets]⟩

/-- Fields two of which overlap and the last of which is beyond the register. -/
theorem insertField_within_iff_overlap :
    let fields : List FieldDecl := [.ofSpan "a" 4 8, .ofSpan "b" 6 10, .ofSpan "c" 40 1]
    (∃ ys i f, insertFieldAfter fields (some 0) 32 = .done ys i ∧ ys[i]? = some f ∧ f.Within 32) ∧
      (∃ ys i f, insertFieldBefore fields (some 0) = .done ys i ∧ ys[i]? = some f ∧ f.Within 32) ∧
      ∃ ys i f, insertFieldBefore fields (some 2) = .done ys i ∧ ys[i]? = some f ∧ ¬ f.Within 32 := by
  intro fields
  have hbehind : insertFieldAfter fields (some 0) 32 =
      .done [.ofSpan "a" 4 8, .ofSpan "field1" 12 1, .ofSpan "b" 13 10, .ofSpan "c" 40 1] 1 := by cbv
  have hfront : insertFieldBefore fields (some 0) =
      .done [.ofSpan "field1" 3 1, .ofSpan "a" 4 8, .ofSpan "b" 6 10, .ofSpan "c" 40 1] 0 := by cbv
  have hbeyond : insertFieldBefore fields (some 2) =
      .done [.ofSpan "a" 4 8, .ofSpan "b" 6 10, .ofSpan "field1" 39 1, .ofSpan "c" 40 1] 2 := by cbv
  refine ⟨?_, ?_, ?_⟩
  · obtain ⟨f, hnew, hin⟩ := (insertField_within_iff fields (some 0) 32).1 _ _ hbehind
    exact ⟨_, _, f, hbehind, hnew, hin⟩
  · obtain ⟨f, ref, hnew, href, hiff⟩ := (insertField_within_iff fields (some 0) 32).2 _ _ hfront
    cases href
    exact ⟨_, _, f, hfront, hnew, hiff.2 (by decide)⟩
  · obtain ⟨f, ref, hnew, href, hiff⟩ := (insertField_within_iff fields (some 2) 32).2 _ _ hbeyond
    cases href
    exact ⟨_, _, f, hbeyond, hnew, fun hin => absurd (hiff.1 hin) (by decide)⟩

/-- In front of a field beyond the register a new one is created beyond it as well. -/
theorem insertFieldBefore_beyond :
    ∃ ys i f, insertFieldBefore [.ofSpan "a" 40 1] (some 0) = .done ys i ∧ ys[i]? = some f ∧ ¬ f.Within 32 := by
  have hdone : insertFieldBefore [.ofSpan "a" 40 1] (some 0) = .done [.ofSpan "field1" 39 1, .ofSpan "a" 40 1] 0 := by
    cbv
  exact ⟨_, _, _, hdone, rfl, by unfold Within; decide⟩

end FieldDecl

/-! ## Addresses without an end -/

namespace Placed

section Endless
variable {α : Type} [Placed α] {items : List α}

theorem insertAfter_invalid {index : Nat} (h : items.length ≤ index) (axis : Axis) :
    insertAfter items (some index) axis = .failed items (.invalidSelection index) := by
  cases items with
  | nil => rfl
  | cons y others => simp only [insertAfter, Option.getD_some, divide?_eq_none_iff.2 h]

theorem exists_inOrder {selected : Option Nat} {ref : α} (href : reference? items selected = some ref) :
    ∃ before after, inOrder items = before ++ ref :: after :=
  List.append_of_mem ((inOrder_perm items).mem_iff.2 (mem_of_reference? href))

theorem exists_insertAfter_unbounded [Lawful α] {limit : Nat} {selected : Option Nat} {ref : α}
    (hs : Suits .unbounded α) (hsound : Sound limit items) (href : reference? items selected = some ref) :
    ∃ ys position, insertAfter items selected .unbounded = .done ys position := by
  obtain ⟨before, after, horder⟩ := exists_inOrder href
  have hroom : List.Forall₂ (fun x s => Axis.unbounded.fits (clamp64 (s + (footprint x).toNat)) = true) after
      (settle (reach ref + (footprint (fresh items)).toNat) after) := (settle_onward _ after).imp fun _ _ _ => rfl
  obtain ⟨after', hpush⟩ := exists_pushedForward hroom
  exact ⟨_, _, (insertAfter_done_iff hs hsound.occupied hsound.gaps horder href).2 ⟨rfl, after', hpush, rfl, rfl⟩⟩

/-- On an endless axis an insertion behind a reference is refused only for want of one. -/
theorem insertAfter_unbounded_failed_iff [Lawful α] {limit : Nat} {selected : Option Nat} {e : Refusal}
    (hs : Suits .unbounded α) (hsound : Sound limit items) :
    insertAfter items selected .unbounded = .failed items e ↔
      ∃ index, selected = some index ∧ items.length ≤ index ∧ e = .invalidSelection index := by
  constructor
  · intro h
    cases href : reference? items selected with
    | some ref =>
      obtain ⟨ys, position, hdone⟩ := exists_insertAfter_unbounded hs hsound href
      rw [hdone] at h
      exact absurd h Insertion.done_ne_failed
    | none =>
      cases selected with
      | none =>
        rw [List.getLast?_eq_none_iff.1 href] at h
        exact absurd h Insertion.done_ne_failed
      | some index =>
        have hle : items.length ≤ index := List.getElem?_eq_none_iff.1 href
        rw [insertAfter_invalid hle, Insertion.failed_inj] at h
        exact ⟨index, rfl, hle, h.2.symm⟩
  · rintro ⟨index, rfl, hle, rfl⟩
    exact insertAfter_invalid hle _

end Endless

end Placed

namespace Editor

open Placed

theorem Domain.footprint_pos {d : Domain} (hd : d.axis = .unbounded) (x : d.Item) : 0 < footprint x := by
  cases d with
  | fields width => cases hd
  | registers => exact RegisterDecl.footprint_pos x
  | blocks => exact AddressBlock.footprint_pos x

/-- The end of the address space is no bound for insertions, only a ceiling for starts. One
without a reference to go behind is refused, with the items as they were and no new one;
any other succeeds. Behind a reference the new item and those that follow are where they
are packed with exact numbers, or at the largest word. -/
theorem insertAfter_endless (d : Domain) (hd : d.axis = .unbounded) {items : List d.Item} (selected : Option Nat)
    (hapart : items.Pairwise Apart) (hin : ∀ x ∈ items, reach x ≤ max64 + 1) :
    (∀ e, answer d items ⟨.after, selected⟩ = .failed items e ↔
        ∃ index, selected = some index ∧ items.length ≤ index ∧ e = .invalidSelection index) ∧
      (items = [] → selected = none → answer d items ⟨.after, selected⟩ = .done [fresh items] 0) ∧
      ∀ before ref after, reference? items selected = some ref → inOrder items = before ++ ref :: after →
        ∃ x after', answer d items ⟨.after, selected⟩ = .done (before ++ ref :: x :: after') (before.length + 1) ∧
          List.Forall₂ Kept (fresh items :: after) (x :: after') ∧
          List.Forall₂ (fun y s => start y = clamp64 s) (x :: after') (settle (reach ref) (fresh items :: after)) := by
  have hanswer : answer d items ⟨.after, selected⟩ = insertAfter items selected .unbounded := by
    rw [answer_eq, hd]
    rfl
  have hs : Suits .unbounded d.Item := by
    rw [← hd]
    exact suits_axis d
  have hsound : Sound (max64 + 1) items := ⟨fun x _ => Domain.footprint_pos hd x, hapart, hin⟩
  rw [hanswer]
  refine ⟨fun e => insertAfter_unbounded_failed_iff hs hsound, ?_, fun before ref after href horder => ?_⟩
  · rintro rfl rfl
    rfl
  · obtain ⟨ys, position, hdone⟩ := exists_insertAfter_unbounded hs hsound href
    obtain ⟨x, after', rfl, rfl, hkept, -, hsettled⟩ := insertAfter_settled hs hsound horder href hdone
    exact ⟨x, after', hdone, hkept, hsettled⟩

/-- Two registers at the end of the address space. The second one is pushed on and starts at
the largest word. -/
theorem insertAfter_endless_top :
    let items : List RegisterDecl := [.ofOffset "a" 0xFFFFFFFFFFFFFFF8, .ofOffset "b" 0xFFFFFFFFFFFFFFFC]
    ∃ x y, answer .registers items ⟨.after, some 0⟩ = .done [.ofOffset "a" 0xFFFFFFFFFFFFFFF8, x, y] 1 ∧
      start x = 0xFFFFFFFFFFFFFFFC ∧ start y = 0xFFFFFFFFFFFFFFFF := by
  intro items
  have hapart : items.Pairwise Apart := List.pairwise_pair.2 (apart_of_reach (by decide))
  have hin : ∀ x ∈ items, reach x ≤ max64 + 1 := by decide
  have horder : inOrder items = [] ++ .ofOffset "a" 0xFFFFFFFFFFFFFFF8 :: [.ofOffset "b" 0xFFFFFFFFFFFFFFFC] := by cbv
  obtain ⟨x, after', hok, -, hstarts⟩ :=
    (insertAfter_endless .registers rfl (some 0) hapart hin).2.2 _ _ _ rfl horder
  obtain ⟨hx, hrest⟩ := List.forall₂_cons.1 hstarts
  cases hrest with
  | cons hy hnil =>
    cases hnil
    exact ⟨x, _, hok, hx.trans (by decide), hy.trans (by decide)⟩

/-- A register that ends where the address space does, and one that is inserted behind it
all the same. -/
theorem insertRegisterAfter_top :
    let a : RegisterDecl := .ofOffset "a" 0xFFFFFFFFFFFFFFFC
    reach a = max64 + 1 ∧ max64 + 1 < reach a + (footprint (fresh [a])).toNat ∧
      insertRegisterAfter [a] (some 0) = .done [a, .ofOffset "reg1" 0xFFFFFFFFFFFFFFFF] 1 := by
  intro a
  exact ⟨by decide, by decide, by cbv⟩

end Editor

end CoreForge
