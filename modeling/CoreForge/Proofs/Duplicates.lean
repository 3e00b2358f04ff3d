import CoreForge.Proofs.Overlaps
/-!
# Duplicate offsets

Which registers the scan reports for an offset that another one has. Only the remembered
register is compared, and of those that stop last it is the first: `Foremost`. So a register
that starts where an earlier one does is reported for that exactly when no register that
starts before both reaches as far: `MemoryMap.duplicate_issues`. Words of one width never
reach further than what starts later, and then all duplicates are reported as such.
-/

namespace CoreForge

open CoreForge.Number

namespace Issue

/-- The issue is about two registers that start at one address. -/
def isDuplicate : Issue → Bool
  | .duplicateOffset .. => true
  | _ => false

theorem isSharing_of_isDuplicate {i : Issue} (h : i.isDuplicate = true) : i.isSharing = true := by
  cases i with
  | duplicateOffset a b => rfl
  | _ => cases h

end Issue

namespace FlatRegister

/-! ## The foremost register -/

/-- Of the registers that stop last, the remembered one is the first. -/
def Foremost (earlier : List FlatRegister) : Option FlatRegister → Prop
  | none => earlier = []
  | some e => ∃ front back, earlier = front ++ e :: back ∧ (∀ x ∈ front, x.stop < e.stop) ∧ ∀ x ∈ back, x.stop ≤ e.stop

theorem foremost_none : Foremost [] none := rfl

variable {earlier : List FlatRegister} {e r : FlatRegister}

theorem foremost_iff {furthest : Option FlatRegister} :
    Foremost earlier furthest ↔ InMind (fun x => x.stop.toNat) earlier furthest := by
  cases furthest <;> exact Iff.rfl

theorem further_eq (furthest : Option FlatRegister) (r : FlatRegister) :
    further furthest r = keepLarger (fun x => x.stop.toNat) furthest r := by
  cases furthest with
  | none => rfl
  | some e => exact if_congr UInt64.lt_iff_toNat_lt rfl rfl

theorem Foremost.stop_le (h : Foremost earlier (some e)) {x : FlatRegister} (hx : x ∈ earlier) : x.stop ≤ e.stop :=
  UInt64.le_iff_toNat_le.2 (FirstLargest.key_le (foremost_iff.1 h) x hx)

theorem Foremost.mem (h : Foremost earlier (some e)) : e ∈ earlier := FirstLargest.mem (foremost_iff.1 h)

theorem Foremost.step (earlier : List FlatRegister) (furthest : Option FlatRegister) (h : Foremost earlier furthest)
    (r : FlatRegister) : Foremost (earlier ++ [r]) (some (further furthest r)) := by
  rw [foremost_iff, further_eq]
  exact InMind.step earlier furthest (foremost_iff.1 h) r

/-! ## What is reported -/

/-- Some register before starts at the same address, and all that start elsewhere stop before
it does, as far as words tell. -/
def Repeats (earlier : List FlatRegister) (r : FlatRegister) : Prop :=
  ∃ e ∈ earlier, e.offset = r.offset ∧ ∀ x ∈ earlier, x.offset ≠ r.offset → min x.reach max64 < min e.reach max64

theorem stop_lt_stop_iff {x y : FlatRegister} : x.stop < y.stop ↔ min x.reach max64 < min y.reach max64 := by
  rw [UInt64.lt_iff_toNat_lt, toNat_stop, toNat_stop]

/-- Among registers by address, the remembered one tells whether there is such a register. -/
theorem repeats_iff (h : Foremost earlier (some e)) (hsorted : earlier.Pairwise fun a b => a.offset ≤ b.offset)
    (hlast : ∀ x ∈ earlier, x.offset ≤ r.offset) : Repeats earlier r ↔ e.offset = r.offset := by
  constructor
  · rintro ⟨d, hd, -, hbefore⟩
    by_contra hne
    exact absurd (h.stop_le hd) (UInt64.not_le.2 (stop_lt_stop_iff.2 (hbefore e h.mem hne)))
  · intro heq
    refine ⟨e, h.mem, heq, ?_⟩
    intro x hx hne
    obtain ⟨front, back, rfl, hfront, -⟩ := h
    rcases List.mem_append.1 hx with hfrontmem | hrest
    · exact stop_lt_stop_iff.1 (hfront x hfrontmem)
    · rcases List.mem_cons.1 hrest with rfl | hback
      · exact absurd heq hne
      · -- What comes after the remembered register starts no earlier, so at the same address.
        have hge := List.rel_of_pairwise_cons (List.pairwise_append.1 hsorted).2.1 hback
        rw [heq] at hge
        exact absurd (UInt64.le_antisymm (hlast x hx) hge) hne

/-- With words of one width any register before that starts at the same address counts. -/
theorem repeats_iff_exists (hreach : r.reach ≤ max64) (hwidth : ∀ x ∈ earlier, x.width = r.width)
    (hlast : ∀ x ∈ earlier, x.offset ≤ r.offset) : Repeats earlier r ↔ ∃ e ∈ earlier, e.offset = r.offset := by
  constructor
  · rintro ⟨e, he, heq, -⟩
    exact ⟨e, he, heq⟩
  · rintro ⟨e, he, heq⟩
    refine ⟨e, he, heq, ?_⟩
    intro x hx hne
    have hlt : x.offset.toNat < r.offset.toNat := UInt64.lt_iff_toNat_lt.1 (UInt64.lt_of_le_of_ne (hlast x hx) hne)
    unfold reach at hreach
    rw [reach, reach, hwidth x hx, hwidth e he, heq]
    omega

/-- The verdict on the offset of a register: there is an issue exactly when an earlier one
has it and stops last, and the issue names both. -/
structure Matched (earlier : List FlatRegister) (r : FlatRegister) (v : Option Issue) : Prop where
  reported : v.isSome ↔ Repeats earlier r
  named : ∀ i ∈ v, ∃ e ∈ earlier, e.offset = r.offset ∧ i = .duplicateOffset e r

theorem filter_positionIssue? (e r : FlatRegister) :
    (positionIssue? (some e) r).filter Issue.isDuplicate =
      if e.offset = r.offset then some (.duplicateOffset e r) else none := by
  unfold positionIssue?
  by_cases heq : e.offset = r.offset
  · simp [heq, Issue.isDuplicate]
  · by_cases hlt : r.offset < e.stop <;> simp [heq, hlt, Issue.isDuplicate]

theorem matched_positionIssue? {furthest : Option FlatRegister} (h : Foremost earlier furthest)
    (hsorted : earlier.Pairwise fun a b => a.offset ≤ b.offset) (hlast : ∀ x ∈ earlier, x.offset ≤ r.offset) :
    Matched earlier r ((positionIssue? furthest r).filter Issue.isDuplicate) := by
  cases furthest with
  | none =>
    have hnil : earlier = [] := h
    constructor <;> simp [hnil, positionIssue?, Repeats]
  | some e =>
    rw [filter_positionIssue?]
    by_cases heq : e.offset = r.offset
    · rw [if_pos heq]
      refine ⟨by simp [repeats_iff h hsorted hlast, heq], ?_⟩
      intro i hi
      rw [Option.mem_some_iff] at hi
      exact ⟨e, h.mem, heq, hi.symm⟩
    · rw [if_neg heq]
      refine ⟨by simp [repeats_iff h hsorted hlast, heq], ?_⟩
      intro i hi
      cases hi

end FlatRegister

theorem filter_isDuplicate_validate (maps : List MemoryMap) (rs : List FlatRegister) :
    (validate maps rs).filter Issue.isDuplicate =
      ((FlatRegister.verdicts none rs).map (Option.filter Issue.isDuplicate)).filterMap id := by
  -- Issues about duplicates are among those about shared bytes.
  have hboth : ∀ i : Issue, (i.isDuplicate && i.isSharing) = i.isDuplicate := by
    intro i
    cases hi : i.isDuplicate with
    | false => exact Bool.false_and _
    | true => rw [Issue.isSharing_of_isDuplicate hi, Bool.and_self]
  calc (validate maps rs).filter Issue.isDuplicate
      = ((validate maps rs).filter Issue.isSharing).filter Issue.isDuplicate := by
        rw [List.filter_filter]
        exact List.filter_congr fun i _ => (hboth i).symm
    _ = ((FlatRegister.verdicts none rs).filterMap id).filter Issue.isDuplicate := by rw [filter_validate]
    _ = _ := by
        rw [List.filter_filterMap, List.filterMap_map]
        rfl

namespace MemoryMap

/-- For any maps, whatever the widths of their words, which registers are reported for an
offset that an earlier one has: those that no register starting elsewhere hides, and so all of
them where the words before have the same width. -/
theorem duplicate_issues (maps : List MemoryMap) :
    ∃ verdicts : List (Option Issue), verdicts.length = (flatten maps).length ∧
      (validate maps (flatten maps)).filter Issue.isDuplicate = verdicts.filterMap id ∧
      ∀ k r v, (flatten maps)[k]? = some r → verdicts[k]? = some v →
        FlatRegister.Matched ((flatten maps).take k) r v ∧
          (r.reach ≤ max64 → (∀ x ∈ (flatten maps).take k, x.width = r.width) →
            (v.isSome ↔ ∃ e ∈ (flatten maps).take k, e.offset = r.offset)) := by
  have hsorted := ascending_flatten maps
  generalize flatten maps = regs at *
  refine ⟨(FlatRegister.verdicts none regs).map (Option.filter Issue.isDuplicate), ?_,
    filter_isDuplicate_validate maps regs, ?_⟩
  · rw [List.length_map, FlatRegister.length_verdicts]
  · intro k r v hr hv
    obtain ⟨f, hf, hget⟩ := FlatRegister.exists_remembered FlatRegister.Foremost.step FlatRegister.foremost_none regs k
    rw [List.getElem?_map, hget, hr, Option.map_some, Option.map_some, Option.some.injEq] at hv
    have hmem : r ∈ regs.drop k := List.mem_of_getElem? (i := 0) (by rw [List.getElem?_drop, Nat.add_zero, hr])
    have hsplit : (regs.take k ++ regs.drop k).Pairwise fun a b => a.offset ≤ b.offset := by
      rwa [List.take_append_drop]
    obtain ⟨hearlier, -, hacross⟩ := List.pairwise_append.1 hsplit
    have hlast : ∀ e ∈ regs.take k, e.offset ≤ r.offset := fun e he => hacross e he r hmem
    have hmatched := FlatRegister.matched_positionIssue? hf hearlier hlast
    rw [hv] at hmatched
    refine ⟨hmatched, ?_⟩
    intro hreach hwidth
    rw [hmatched.reported]
    exact FlatRegister.repeats_iff_exists hreach hwidth hlast

/-- Two narrow registers at one address are not reported for it where a wide one that starts
before them reaches as far. -/
theorem duplicate_unreported :
    let wide : AddressBlock :=
      { AddressBlock.ofAddress "wide" 0 with defaultRegWidth := 64, registers := [.ofOffset "a" 0] }
    let narrow : AddressBlock :=
      { AddressBlock.ofAddress "narrow" 4 with registers := [.ofOffset "b" 0, .ofOffset "c" 0] }
    let maps : List MemoryMap := [⟨"m", "", [wide, narrow]⟩]
    (flatten maps).map FlatRegister.offset = [0, 4, 4] ∧
      (validate maps (flatten maps)).filter Issue.isDuplicate = [] := by
  intro wide narrow maps
  exact ⟨by cbv, by cbv⟩

end MemoryMap

end CoreForge
