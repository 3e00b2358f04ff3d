import Mathlib
import CoreForge.Proofs.Scanning
import CoreForge.Proofs.Words
import CoreForge.Registers.Issue
/-!
# The overlap scan

The scan over registers sorted by address remembers one register only. `Furthest` is
what it knows: of the registers before, the remembered one stops last. So one comparison
decides about all of them: `MemoryMap.sharing_issues`.
-/

namespace CoreForge

open CoreForge.Number

/-! ## Bytes -/

/-- The bytes of a word of some bits, at least one. -/
def wordSize (width : UInt32) : Nat := max ((width.toNat + 7) / 8) 1

theorem wordSize_pos (width : UInt32) : 0 < wordSize width := Nat.lt_of_lt_of_le Nat.zero_lt_one (Nat.le_max_right _ _)

namespace FlatRegister

/-- The exact first byte after the register. -/
def reach (r : FlatRegister) : Nat := r.offset.toNat + wordSize r.width

/-- The register occupies a byte. -/
def Covers (r : FlatRegister) (byte : Nat) : Prop := r.offset.toNat ≤ byte ∧ byte < r.reach

/-- Two registers have a byte in common. -/
def Share (a b : FlatRegister) : Prop := ∃ byte, a.Covers byte ∧ b.Covers byte

/-- The first register stops before the second one, as far as words tell. -/
def Clears (a b : FlatRegister) : Prop := a.stop ≤ b.offset ∧ a.offset ≠ b.offset

theorem toNat_bytes (r : FlatRegister) : r.bytes.toNat = wordSize r.width := by
  have := toNat_le_max32 r.width
  have := max32_lt_max64
  rw [bytes, toNat_clamp64, wordSize]
  omega

theorem toNat_stop (r : FlatRegister) : r.stop.toNat = min r.reach max64 := by
  rw [stop, toNat_addSat, toNat_bytes, reach]

theorem share_iff {a b : FlatRegister} (h : a.offset ≤ b.offset) : a.Share b ↔ b.offset.toNat < a.reach := by
  rw [UInt64.le_iff_toNat_le] at h
  constructor
  · rintro ⟨byte, ⟨-, ha⟩, hb, -⟩
    omega
  · intro hlt
    refine ⟨b.offset.toNat, ⟨h, hlt⟩, Nat.le_refl _, ?_⟩
    have := wordSize_pos b.width
    rw [reach]
    omega

/-- Below the largest word a register that stops early enough does not start late. -/
theorem clears_iff_stop_le {a b : FlatRegister} (hb : b.offset.toNat < max64) : a.Clears b ↔ a.stop ≤ b.offset := by
  refine ⟨fun h => h.1, fun h => ⟨h, fun heq => ?_⟩⟩
  have := wordSize_pos a.width
  rw [UInt64.le_iff_toNat_le, toNat_stop, reach, heq] at h
  omega

theorem clears_iff_reach_le {a b : FlatRegister} (ha : a.reach ≤ max64) (hb : b.offset.toNat < max64) :
    a.Clears b ↔ a.reach ≤ b.offset.toNat := by
  rw [clears_iff_stop_le hb, UInt64.le_iff_toNat_le, toNat_stop, Nat.min_eq_left ha]

/-! ## The remembered register -/

/-- Of some registers, the remembered one stops last. -/
def Furthest (earlier : List FlatRegister) : Option FlatRegister → Prop
  | none => earlier = []
  | some e => e ∈ earlier ∧ ∀ x ∈ earlier, x.stop ≤ e.stop

theorem furthest_none : Furthest [] none := rfl

variable {earlier : List FlatRegister} {furthest : Option FlatRegister}

theorem Furthest.step (h : Furthest earlier furthest) (r : FlatRegister) :
    Furthest (earlier ++ [r]) (some (further furthest r)) := by
  cases furthest with
  | none =>
    have hnil : earlier = [] := h
    simp [hnil, Furthest, further]
  | some e =>
    obtain ⟨hmem, hmax⟩ := h
    unfold further
    simp only
    split
    · rename_i hlt
      refine ⟨by simp, fun x hx => ?_⟩
      rcases List.mem_append.1 hx with hx | hx
      · exact UInt64.le_trans (hmax x hx) (UInt64.le_of_lt hlt)
      · rw [List.mem_singleton.1 hx]
        exact UInt64.le_refl _
    · rename_i hge
      refine ⟨by simp [hmem], fun x hx => ?_⟩
      rcases List.mem_append.1 hx with hx | hx
      · exact hmax x hx
      · rw [List.mem_singleton.1 hx]
        exact UInt64.not_lt.1 hge

/-- The issue of a register with one before it, if they are too close. -/
def issueWith (e r : FlatRegister) : Issue :=
  if e.offset = r.offset then .duplicateOffset e r else .registerOverlap e r

theorem positionIssue?_some (e r : FlatRegister) :
    (e.Clears r ∧ positionIssue? (some e) r = none) ∨
      (¬ e.Clears r ∧ positionIssue? (some e) r = some (issueWith e r)) := by
  unfold positionIssue? issueWith Clears
  by_cases heq : e.offset = r.offset
  · simp [heq]
  · simp only [heq, if_false]
    by_cases hlt : r.offset < e.stop
    · simp [hlt, UInt64.not_le.2 hlt]
    · simp [heq, hlt, UInt64.not_lt.1 hlt]

/-- One comparison decides about all registers before. -/
theorem positionIssue?_eq_none_iff (h : Furthest earlier furthest) {r : FlatRegister} (hr : r.offset.toNat < max64) :
    positionIssue? furthest r = none ↔ ∀ e ∈ earlier, e.Clears r := by
  cases furthest with
  | none =>
    have hnil : earlier = [] := h
    simp [hnil, positionIssue?]
  | some e =>
    obtain ⟨hmem, hmax⟩ := h
    -- The others stop no later than the furthest one, so they clear what it clears.
    have hall : e.Clears r ↔ ∀ x ∈ earlier, x.Clears r := by
      refine ⟨fun he x hx => ?_, fun hx => hx e hmem⟩
      rw [clears_iff_stop_le hr] at he ⊢
      exact UInt64.le_trans (hmax x hx) he
    rw [← hall]
    rcases positionIssue?_some e r with ⟨hclear, hnone⟩ | ⟨hclear, hsome⟩
    · simp [hclear, hnone]
    · simp [hclear, hsome]

/-- The issue names a register before, that is in the way. -/
theorem mem_of_positionIssue? (h : Furthest earlier furthest) {r : FlatRegister} {i : Issue}
    (hi : positionIssue? furthest r = some i) : ∃ e ∈ earlier, ¬ e.Clears r ∧ i = issueWith e r := by
  cases furthest with
  | none => simp [positionIssue?] at hi
  | some e =>
    rcases positionIssue?_some e r with ⟨-, hnone⟩ | ⟨hclear, hsome⟩
    · rw [hnone] at hi
      cases hi
    · rw [hsome, Option.some.injEq] at hi
      exact ⟨e, h.1, hclear, hi.symm⟩

/-! ## The scan -/

/-- What the scan says about each register. -/
def verdicts (furthest : Option FlatRegister) : List FlatRegister → List (Option Issue)
  | [] => []
  | r :: rs => positionIssue? furthest r :: verdicts (some (further furthest r)) rs

theorem verdicts_eq (furthest : Option FlatRegister) (rs : List FlatRegister) :
    verdicts furthest rs = scan positionIssue? further furthest rs := by
  induction rs generalizing furthest with
  | nil => rfl
  | cons r rs ih => rw [verdicts, scan, ih]

theorem length_verdicts (furthest : Option FlatRegister) (rs : List FlatRegister) :
    (verdicts furthest rs).length = rs.length := by
  rw [verdicts_eq, length_scan]

/-- What every step of the scan keeps holds of the register each verdict comes from. -/
theorem exists_remembered {P : List FlatRegister → Option FlatRegister → Prop}
    (hstep : ∀ earlier furthest, P earlier furthest → ∀ r, P (earlier ++ [r]) (some (further furthest r)))
    (h : P earlier furthest) (rs : List FlatRegister) (k : Nat) :
    ∃ f, P (earlier ++ rs.take k) f ∧ (verdicts furthest rs)[k]? = rs[k]?.map (positionIssue? f) := by
  rw [verdicts_eq]
  exact getElem?_scan hstep h rs k

/-- The verdict on a register comes from the furthest one of those before it. -/
theorem getElem?_verdicts (h : Furthest earlier furthest) (rs : List FlatRegister) (k : Nat) :
    ∃ f, Furthest (earlier ++ rs.take k) f ∧ (verdicts furthest rs)[k]? = rs[k]?.map (positionIssue? f) :=
  exists_remembered (fun _ _ => Furthest.step) h rs k

/-- Registers that clear each other get no issue. -/
theorem verdicts_of_clears (h : Furthest earlier furthest) {rs : List FlatRegister}
    (hbefore : ∀ r ∈ rs, ∀ e ∈ earlier, e.Clears r) (hrs : rs.Pairwise Clears) :
    ∀ v ∈ verdicts furthest rs, v = none := by
  induction rs generalizing earlier furthest with
  | nil => simp [verdicts]
  | cons r rs ih =>
    obtain ⟨hfirst, hrest⟩ := List.pairwise_cons.1 hrs
    intro v hv
    rcases List.mem_cons.1 hv with rfl | hv
    · cases furthest with
      | none => rfl
      | some e =>
        have hclear := hbefore r (by simp) e h.1
        rcases positionIssue?_some e r with ⟨-, hnone⟩ | ⟨hnot, -⟩
        · exact hnone
        · exact absurd hclear hnot
    · refine ih (h.step r) (fun x hx e he => ?_) hrest v hv
      rcases List.mem_append.1 he with he | he
      · exact hbefore x (by simp [hx]) e he
      · rw [List.mem_singleton.1 he]
        exact hfirst x hx

/-- Below the largest word, no issue means that all registers clear each other. -/
theorem clears_of_verdicts (h : Furthest earlier furthest) {rs : List FlatRegister}
    (hlow : ∀ r ∈ rs, r.offset.toNat < max64) (hnone : ∀ v ∈ verdicts furthest rs, v = none) :
    (∀ r ∈ rs, ∀ e ∈ earlier, e.Clears r) ∧ rs.Pairwise Clears := by
  induction rs generalizing earlier furthest with
  | nil => simp
  | cons r rs ih =>
    have hr := (positionIssue?_eq_none_iff h (hlow r (by simp))).1 (hnone _ (by simp [verdicts]))
    obtain ⟨hbefore, hrest⟩ := ih (h.step r) (fun x hx => hlow x (by simp [hx]))
      fun v hv => hnone v (by simp [verdicts, hv])
    refine ⟨fun x hx e he => ?_, List.pairwise_cons.2 ⟨fun x hx => hbefore x hx r (by simp), hrest⟩⟩
    rcases List.mem_cons.1 hx with rfl | hx
    · exact hr e he
    · exact hbefore x hx e (by simp [he])

/-- The right verdict on a register: there is an issue exactly when an earlier register
reaches beyond its start, and the issue names one that has a byte in common with it. -/
structure Judged (earlier : List FlatRegister) (r : FlatRegister) (v : Option Issue) : Prop where
  reported : v.isSome ↔ ∃ e ∈ earlier, r.offset.toNat < e.reach
  named : ∀ i ∈ v, ∃ e ∈ earlier, i = issueWith e r ∧ e.Share r

theorem judged_positionIssue? (h : Furthest earlier furthest) {r : FlatRegister}
    (hsorted : ∀ e ∈ earlier, e.offset ≤ r.offset) (hfit : ∀ e ∈ earlier, e.reach ≤ max64) (hr : r.reach ≤ max64) :
    Judged earlier r (positionIssue? furthest r) := by
  have hlow : r.offset.toNat < max64 := by
    have := wordSize_pos r.width
    rw [reach] at hr
    omega
  constructor
  · rw [← Option.ne_none_iff_isSome, Ne, positionIssue?_eq_none_iff h hlow]
    simp only [not_forall, exists_prop]
    refine exists_congr fun e => and_congr_right fun he => ?_
    rw [clears_iff_reach_le (hfit e he) hlow, Nat.not_le]
  · intro i hi
    obtain ⟨e, he, hclear, rfl⟩ := mem_of_positionIssue? h hi
    refine ⟨e, he, rfl, (share_iff (hsorted e he)).2 ?_⟩
    rw [clears_iff_reach_le (hfit e he) hlow, Nat.not_le] at hclear
    exact hclear

end FlatRegister

namespace Issue

/-- The issue is about two registers with a byte in common. -/
def isSharing : Issue → Bool
  | .duplicateOffset .. => true
  | .registerOverlap .. => true
  | _ => false

/-- The issue is about repetitions that are too close together. -/
def isStride : Issue → Bool
  | .strideTooSmall .. => true
  | _ => false

end Issue

namespace RegisterDecl

mutual

theorem isStride_of_mem_strideIssues (path : String) : ∀ r : RegisterDecl, ∀ i ∈ strideIssues path r, i.isStride = true
  | ⟨name, offset, access, description, fields, count, stride, registers⟩ => by
    intro i hi
    rw [strideIssues] at hi
    rcases List.mem_append.1 hi with hi | hi
    · split at hi
      · rw [List.mem_singleton.1 hi]
        rfl
      · cases hi
    · exact isStride_of_mem_strideIssuesAll _ registers i hi

theorem isStride_of_mem_strideIssuesAll (path : String) :
    ∀ rs : List RegisterDecl, ∀ i ∈ strideIssuesAll path rs, i.isStride = true
  | [] => by simp [strideIssuesAll]
  | r :: rs => by
    intro i hi
    rw [strideIssuesAll] at hi
    rcases List.mem_append.1 hi with hi | hi
    · exact isStride_of_mem_strideIssues path r i hi
    · exact isStride_of_mem_strideIssuesAll path rs i hi

end

end RegisterDecl

namespace FlatRegister

theorem mem_overlapIssues {r : FlatRegister} {furthest : Option FlatField} {fs : List FlatField} {i : Issue}
    (h : i ∈ overlapIssues r furthest fs) : ∃ e f, i = .fieldOverlap r e f := by
  induction fs generalizing furthest with
  | nil => simp [overlapIssues] at h
  | cons f fs ih =>
    simp only [overlapIssues] at h
    rcases List.mem_append.1 h with h | h
    · cases furthest with
      | none => cases h
      | some e =>
        simp only at h
        split at h
        · exact ⟨e, f, List.mem_singleton.1 h⟩
        · cases h
    · exact ih h

/-- Issues of fields are not about layout. -/
theorem of_mem_fieldIssues {r : FlatRegister} {i : Issue} (h : i ∈ r.fieldIssues) :
    i.isSharing = false ∧ i.isStride = false := by
  rcases List.mem_append.1 h with h | h
  · obtain ⟨f, -, rfl⟩ := List.mem_map.1 h
    exact ⟨rfl, rfl⟩
  · obtain ⟨e, f, rfl⟩ := mem_overlapIssues h
    exact ⟨rfl, rfl⟩

theorem isSharing_of_positionIssue? {furthest : Option FlatRegister} {r : FlatRegister} {i : Issue}
    (h : positionIssue? furthest r = some i) : i.isSharing = true := by
  cases furthest with
  | none => cases h
  | some e =>
    rcases positionIssue?_some e r with ⟨-, hnone⟩ | ⟨-, hsome⟩
    · rw [hnone] at h
      cases h
    · rw [hsome, Option.some.injEq] at h
      rw [← h, issueWith]
      split <;> rfl

theorem filter_issuesFrom (furthest : Option FlatRegister) (rs : List FlatRegister) :
    (issuesFrom furthest rs).filter Issue.isSharing = (verdicts furthest rs).filterMap id := by
  induction rs generalizing furthest with
  | nil => rfl
  | cons r rs ih =>
    have hfields : r.fieldIssues.filter Issue.isSharing = [] := by
      rw [List.filter_eq_nil_iff]
      intro i hi
      simp [(of_mem_fieldIssues hi).1]
    simp only [issuesFrom, List.filter_append, hfields, ih, List.append_nil, verdicts]
    cases hposition : positionIssue? furthest r with
    | none => simp
    | some i => simp [isSharing_of_positionIssue? hposition]

end FlatRegister

theorem filter_validate (maps : List MemoryMap) (rs : List FlatRegister) :
    (validate maps rs).filter Issue.isSharing = (FlatRegister.verdicts none rs).filterMap id := by
  have hstrides : (maps.flatMap fun m => m.addressBlocks.flatMap fun b =>
      RegisterDecl.strideIssuesAll b.name b.registers).filter Issue.isSharing = [] := by
    rw [List.filter_eq_nil_iff]
    intro i hi
    simp only [List.mem_flatMap] at hi
    obtain ⟨m, -, b, -, hi⟩ := hi
    have := RegisterDecl.isStride_of_mem_strideIssuesAll _ _ i hi
    cases i <;> simp_all [Issue.isStride, Issue.isSharing]
  rw [validate, List.filter_append, hstrides, List.nil_append, FlatRegister.filter_issuesFrom]

theorem filter_validate_eq_nil_iff (maps : List MemoryMap) (rs : List FlatRegister) :
    (validate maps rs).filter Issue.isSharing = [] ↔ ∀ v ∈ FlatRegister.verdicts none rs, v = none := by
  rw [filter_validate, List.filterMap_eq_nil_iff]
  rfl

namespace MemoryMap

theorem mem_flatten {maps : List MemoryMap} {r : FlatRegister} : r ∈ flatten maps ↔ r ∈ unrollAll maps :=
  (List.mergeSort_perm _ _).mem_iff

theorem ascending_flatten (maps : List MemoryMap) : (flatten maps).Pairwise fun a b => a.offset ≤ b.offset :=
  ascending_mergeSort FlatRegister.offset _

/-- Where no register reaches beyond the last address, the issues about shared bytes are
right for each register, and there are none exactly when no byte is shared. -/
theorem sharing_issues (maps : List MemoryMap) (hfit : ∀ r ∈ flatten maps, r.reach ≤ max64) :
    (∃ verdicts : List (Option Issue), verdicts.length = (flatten maps).length ∧
      (validate maps (flatten maps)).filter Issue.isSharing = verdicts.filterMap id ∧
      ∀ k r v, (flatten maps)[k]? = some r → verdicts[k]? = some v →
        FlatRegister.Judged ((flatten maps).take k) r v) ∧
    ((validate maps (flatten maps)).filter Issue.isSharing = [] ↔
      (flatten maps).Pairwise fun a b => ¬ a.Share b) := by
  have hsorted := ascending_flatten maps
  generalize flatten maps = regs at *
  have hlow : ∀ r ∈ regs, r.offset.toNat < max64 := fun r hr => by
    have := hfit r hr
    have := wordSize_pos r.width
    rw [FlatRegister.reach] at *
    omega
  constructor
  · refine ⟨FlatRegister.verdicts none regs, FlatRegister.length_verdicts none regs, filter_validate maps regs,
      fun k r v hr hv => ?_⟩
    obtain ⟨f, hf, hget⟩ := FlatRegister.getElem?_verdicts FlatRegister.furthest_none regs k
    rw [hr, hv, Option.map_some, Option.some.injEq] at hget
    have hmem := List.mem_of_getElem? hr
    rw [hget]
    refine FlatRegister.judged_positionIssue? hf (fun e he => ?_) (fun e he => hfit e (List.mem_of_mem_take he))
      (hfit r hmem)
    obtain ⟨hk, hkr⟩ := List.getElem?_eq_some_iff.1 hr
    obtain ⟨j, hj, rfl⟩ := List.mem_take_iff_getElem.1 he
    rw [← hkr]
    exact List.pairwise_iff_getElem.1 hsorted j k (by omega) hk (by omega)
  · rw [filter_validate_eq_nil_iff]
    have hshare : ∀ a b, a ∈ regs → b ∈ regs → a.offset ≤ b.offset → (a.Clears b ↔ ¬ a.Share b) := by
      intro a b ha hb hab
      rw [FlatRegister.share_iff hab, FlatRegister.clears_iff_reach_le (hfit a ha) (hlow b hb), Nat.not_lt]
    have hclears : regs.Pairwise FlatRegister.Clears ↔ regs.Pairwise fun a b => ¬ a.Share b :=
      ⟨fun h => (h.and hsorted).imp_of_mem fun ha hb hab => (hshare _ _ ha hb hab.2).1 hab.1,
        fun h => (h.and hsorted).imp_of_mem fun ha hb hab => (hshare _ _ ha hb hab.2).2 hab.1⟩
    rw [← hclears]
    exact ⟨fun h => (FlatRegister.clears_of_verdicts FlatRegister.furthest_none hlow h).2,
      FlatRegister.verdicts_of_clears FlatRegister.furthest_none (by simp)⟩

/-- A block of wide registers and one of narrow registers that lies inside it. -/
theorem sharing_issues_nested :
    let wide : AddressBlock :=
      { AddressBlock.ofAddress "wide" 0 with defaultRegWidth := 64, registers := [.ofOffset "a" 0, .ofOffset "b" 8] }
    let narrow : AddressBlock :=
      { AddressBlock.ofAddress "narrow" 4 with registers := [.ofOffset "c" 0, .ofOffset "d" 12] }
    let maps : List MemoryMap := [⟨"m", "", [wide]⟩, ⟨"n", "", [narrow]⟩]
    ((validate maps (flatten maps)).filter Issue.isSharing).map Issue.kindName = ["register_overlap"] ∧
      ¬ (flatten maps).Pairwise fun a b => ¬ a.Share b := by
  intro wide narrow maps
  have hkinds : ((validate maps (flatten maps)).filter Issue.isSharing).map Issue.kindName = ["register_overlap"] := by
    cbv
  have hshare := (sharing_issues maps fun r hr => by
    rw [mem_flatten] at hr
    revert r
    decide).2
  refine ⟨hkinds, fun h => ?_⟩
  rw [hshare.2 h] at hkinds
  cases hkinds

end MemoryMap

end CoreForge
