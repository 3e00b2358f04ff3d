import CoreForge.Proofs.Extents
import CoreForge.Proofs.Overlaps
/-!
# Repetitions and their strides

Where the registers of a repeated declaration lie, against what the validator expects. The
extent of a declaration is exactly what its registers cover when words have four bytes, and
repetitions that are not reported share no byte then: `RegisterDecl.instances_extent`.
A repetition that is longer than the stride, by more than a word exceeds four bytes, is
reported: `MemoryMap.strides_reported`.
-/

namespace CoreForge

open CoreForge.Number

theorem FlatRegister.not_share_of_reach_le {x y : FlatRegister} (h : x.reach ≤ y.offset.toNat) : ¬ x.Share y := by
  rintro ⟨byte, ⟨-, hx⟩, hy, -⟩
  omega

namespace RegisterDecl

/-! ## The registers of one repetition -/

/-- What the declarations inside one repetition of a group inherit. -/
def inside (around : Surroundings) (r : RegisterDecl) (index : Nat) : Surroundings :=
  { around with
    stem := around.stem ++ instanceName r.name (r.count.getD 1).toNat index ++ "_"
    access := r.access <|> around.access }

/-- The registers of one repetition of a declaration at an address. -/
def repetition (around : Surroundings) (address : UInt64) (r : RegisterDecl) (index : Nat) : List FlatRegister :=
  let base := instanceOffset address (r.stride.getD 0) index
  if r.isGroup then instancesAll (r.inside around index) base r.registers
  else
    let access := normalizeAccess (r.access <|> around.access)
    [{ name := around.stem ++ instanceName r.name (r.count.getD 1).toNat index
       offset := base
       width := around.width
       block := around.block
       access
       description := r.description
       fields := r.fields.map (FieldDecl.flatten access) }]

/-- The registers of a declaration, repetition by repetition. -/
theorem instances_eq_flatMap (around : Surroundings) (address : UInt64) (r : RegisterDecl) :
    r.instances around address = (List.range r.repetitions).flatMap (r.repetition around address) := by
  cases r with
  | mk name offset access description fields count stride registers =>
    unfold repetitions repetition isGroup
    rw [instances]
    cases registers with
    | nil => exact List.map_eq_flatMap
    | cons r rs => rfl

section
variable {around : Surroundings} {address : UInt64} {r : RegisterDecl} {index : Nat}

theorem repetition_leaf (around : Surroundings) (address : UInt64) (index : Nat) (h : r.isGroup = false) :
    ∃ x, r.repetition around address index = [x] ∧
      x.offset = clamp64 (address.toNat + index * (r.stride.getD 0).toNat) ∧ x.width = around.width := by
  have hbase := instanceOffset_clamp64 address.toNat (r.stride.getD 0) index
  rw [clamp64_toNat] at hbase
  unfold repetition
  simp only [h, Bool.false_eq_true, if_false]
  exact ⟨_, rfl, hbase, rfl⟩

theorem repetition_group (h : r.isGroup = true) :
    r.repetition around address index = (occurrencesAll r.registers).map fun o =>
      o.unrolled (r.inside around index) (address.toNat + index * (r.stride.getD 0).toNat) := by
  have hbase := instanceOffset_clamp64 address.toNat (r.stride.getD 0) index
  rw [clamp64_toNat] at hbase
  unfold repetition
  simp only [h, if_true, hbase, instancesAll_eq]

/-- Where the registers of a repetition lie: within the size of the declaration. -/
theorem exists_inner {x : FlatRegister} (h : x ∈ r.repetition around address index) : ∃ inner,
    x.offset = clamp64 (address.toNat + index * (r.stride.getD 0).toNat + inner) ∧ inner + 4 ≤ r.exactSize ∧
      x.width = around.width := by
  cases hgroup : r.isGroup with
  | false =>
    obtain ⟨y, hy, hoffset, hwidth⟩ := repetition_leaf around address index hgroup
    rw [hy, List.mem_singleton] at h
    subst h
    exact ⟨0, hoffset, Nat.le_of_eq (exactSize_leaf hgroup).symm, hwidth⟩
  | true =>
    rw [repetition_group hgroup] at h
    obtain ⟨o, ho, rfl⟩ := List.mem_map.1 h
    refine ⟨o.distance, rfl, ?_, rfl⟩
    rw [exactSize_group hgroup]
    exact stop_le_exactStop ho

end

/-! ## The furthest register -/

mutual

/-- No declaration in the tree is repeated zero times. -/
def Counted : RegisterDecl → Prop
  | ⟨_, _, _, _, _, count, _, registers⟩ => count ≠ some 0 ∧ CountedAll registers

/-- No declaration in any of the trees is repeated zero times. -/
def CountedAll : List RegisterDecl → Prop
  | [] => True
  | r :: rs => Counted r ∧ CountedAll rs

end

theorem strides_lt_repetitions {r : RegisterDecl} (h : r.Counted) : r.strides < r.repetitions := by
  have hcount : (r.count.getD 1).toNat ≠ 0 := by
    cases r with
    | mk name offset access description fields count stride registers =>
      cases count with
      | none => exact Nat.one_ne_zero
      | some n =>
        intro hzero
        exact h.1 (congrArg some (UInt64.toNat.inj hzero))
  unfold strides repetitions
  split <;> omega

mutual

/-- The last repetition of the declaration that stops last is where the extent ends. -/
theorem exists_furthest : ∀ r : RegisterDecl, r.Counted →
    ∃ o ∈ r.occurrences, o.distance + 4 = r.offset.toNat + r.exactExtent
  | ⟨name, offset, access, description, fields, count, stride, registers⟩ => by
    intro hcounted
    have hregisters : CountedAll registers := hcounted.2
    generalize hr : RegisterDecl.mk name offset access description fields count stride registers = r at hcounted ⊢
    have hlast : ⟨r, r.strides⟩ ∈ r.turns := mem_turns.2 ⟨rfl, strides_lt_repetitions hcounted⟩
    have hregs : r.registers = registers := by rw [← hr]
    rw [exactExtent_eq]
    cases hgroup : r.isGroup with
    | false =>
      rw [occurrences_leaf hgroup, exactSize_leaf hgroup]
      refine ⟨⟨[], ⟨r, r.strides⟩⟩, List.mem_map_of_mem hlast, ?_⟩
      rw [Occurrence.distance, List.foldr_nil, Turn.distance_mk, Nat.add_assoc]
    | true =>
      have hne : registers ≠ [] := by
        rw [← hregs]
        simpa [isGroup] using hgroup
      obtain ⟨o, ho, hstop⟩ := exists_furthestAll registers hregisters hne
      rw [occurrences_group hgroup, exactSize_group hgroup, hregs]
      refine ⟨o.within ⟨r, r.strides⟩, List.mem_flatMap.2 ⟨_, hlast, List.mem_map_of_mem ho⟩, ?_⟩
      rw [Occurrence.distance_within, Turn.distance_mk]
      omega

theorem exists_furthestAll : ∀ rs : List RegisterDecl, CountedAll rs → rs ≠ [] →
    ∃ o ∈ occurrencesAll rs, o.distance + 4 = exactStop rs
  | [] => fun _ h => absurd rfl h
  | [r] => by
    intro hcounted _
    obtain ⟨o, ho, hstop⟩ := exists_furthest r hcounted.1
    refine ⟨o, ?_, ?_⟩
    · rw [occurrencesAll]
      exact List.mem_append_left _ ho
    · rw [exactStop, exactStop, hstop, Nat.max_zero]
  | r :: s :: rs => by
    intro hcounted _
    obtain ⟨o, ho, hstop⟩ := exists_furthest r hcounted.1
    obtain ⟨o', ho', hstop'⟩ := exists_furthestAll (s :: rs) hcounted.2 (List.cons_ne_nil s rs)
    rw [occurrencesAll, exactStop]
    rcases Nat.le_total (exactStop (s :: rs)) (r.offset.toNat + r.exactExtent) with hle | hle
    · exact ⟨o, List.mem_append_left _ ho, by rw [Nat.max_eq_left hle, hstop]⟩
    · exact ⟨o', List.mem_append_right _ ho', by rw [Nat.max_eq_right hle, hstop']⟩

end

/-- What a declaration at an address stands for does not depend on its own offset. -/
theorem instances_eq_map (around : Surroundings) (address : UInt64) (r : RegisterDecl) :
    r.instances around address =
      (occurrences { r with offset := 0 }).map fun o => o.unrolled around address.toNat := by
  have h := instances_eq around address.toNat { r with offset := 0 }
  rw [UInt64.toNat_zero, Nat.add_zero, clamp64_toNat] at h
  rw [← h]
  cases r
  rw [instances, instances]

/-! ## The extent -/

/-- The issue about the repetitions of a declaration, for the names down to it. -/
def strideIssue (path : String) (r : RegisterDecl) : Issue := .strideTooSmall path (r.stride.getD 0) r.size

/-- The names down to a declaration, from those around it and its own. -/
def pathBelow (path name : String) : String := if path = "" then name else path ++ "." ++ name

theorem strideIssues_eq (path : String) (r : RegisterDecl) :
    strideIssues path r =
      (if 1 < r.count.getD 1 ∧ r.stride.getD 0 < r.size then [r.strideIssue (pathBelow path r.name)] else []) ++
        strideIssuesAll (pathBelow path r.name) r.registers := by
  cases r
  rw [strideIssues]
  rfl

/-- A declaration whose repetitions are closer together than its size is reported. -/
theorem size_le_of_not_reported {path : String} {r : RegisterDecl} (hcount : 2 ≤ (r.count.getD 1).toNat)
    (h : r.strideIssue (pathBelow path r.name) ∉ r.strideIssues path) : r.size ≤ r.stride.getD 0 := by
  rw [← UInt64.not_lt]
  intro hlt
  have hmany : 1 < r.count.getD 1 := UInt64.lt_iff_toNat_lt.2 hcount
  rw [strideIssues_eq, if_pos ⟨hmany, hlt⟩] at h
  exact h (List.mem_append_left _ (List.mem_singleton_self _))

section
variable {around : Surroundings} {address : UInt64} {r : RegisterDecl} (hfit : address.toNat + r.exactExtent ≤ max64)
include hfit

theorem toNat_extent : r.extent.toNat = r.exactExtent := by
  rw [extent_eq_clamp64, toNat_clamp64, Nat.min_eq_left (by omega)]

/-- The exact place of a register, since no address is clamped. -/
theorem exists_place {index : Nat} {x : FlatRegister} (hindex : index < r.repetitions)
    (hx : x ∈ r.repetition around address index) : ∃ inner,
      x.offset.toNat = address.toNat + index * (r.stride.getD 0).toNat + inner ∧ inner + 4 ≤ r.exactSize ∧
        x.reach = x.offset.toNat + wordSize around.width := by
  obtain ⟨inner, hoffset, hinner, hwidth⟩ := exists_inner hx
  have hwithin := within_extent hindex hinner
  refine ⟨inner, ?_, hinner, by rw [FlatRegister.reach, hwidth]⟩
  rw [hoffset, toNat_clamp64, Nat.min_eq_left (by omega)]

theorem mem_instances_within (hwords : wordSize around.width ≤ 4) {x : FlatRegister}
    (hx : x ∈ r.instances around address) :
    address.toNat ≤ x.offset.toNat ∧ x.reach ≤ address.toNat + r.exactExtent := by
  rw [instances_eq_flatMap, List.mem_flatMap] at hx
  obtain ⟨index, hindex, hx⟩ := hx
  rw [List.mem_range] at hindex
  obtain ⟨inner, hoffset, hinner, hreach⟩ := exists_place hfit hindex hx
  have hwithin := within_extent hindex hinner
  omega

theorem exists_reach_eq (hwords : wordSize around.width = 4) (hcounted : r.Counted) :
    ∃ x ∈ r.instances around address, x.reach = address.toNat + r.exactExtent := by
  have hcounted' : Counted { r with offset := 0 } := by
    cases r
    exact hcounted
  have hextent : exactExtent { r with offset := 0 } = r.exactExtent := by
    cases r
    rw [exactExtent, exactExtent]
  obtain ⟨o, ho, hstop⟩ := exists_furthest _ hcounted'
  rw [UInt64.toNat_zero, Nat.zero_add, hextent] at hstop
  rw [instances_eq_map]
  refine ⟨_, List.mem_map_of_mem ho, ?_⟩
  have hoffset : (o.unrolled around address.toNat).offset.toNat = address.toNat + o.distance :=
    (toNat_clamp64 _).trans (Nat.min_eq_left (by omega))
  have hbytes : wordSize (o.unrolled around address.toNat).width = 4 := hwords
  rw [FlatRegister.reach, hoffset, hbytes]
  omega

/-- Repetitions that are at least one size apart share no byte. -/
theorem repetitions_apart (hwords : wordSize around.width ≤ 4) (hstride : r.size ≤ r.stride.getD 0) :
    (List.range r.repetitions).Pairwise fun i j =>
      ∀ x ∈ r.repetition around address i, ∀ y ∈ r.repetition around address j, ¬ x.Share y := by
  have hle : r.exactSize ≤ r.exactExtent := by
    rw [exactExtent_eq]
    exact Nat.le_add_left _ _
  rw [UInt64.le_iff_toNat_le, size_eq_clamp64, toNat_clamp64, Nat.min_eq_left (by omega)] at hstride
  refine List.pairwise_lt_range.imp_of_mem fun {i j} hi hj hij x hx y hy => ?_
  rw [List.mem_range] at hi hj
  obtain ⟨a, hxa, hinner, hreach⟩ := exists_place hfit hi hx
  obtain ⟨b, hyb, -, -⟩ := exists_place hfit hj hy
  -- The later repetition starts at least one stride, and so one size, further on.
  have hsteps := Nat.mul_le_mul_right (r.stride.getD 0).toNat (Nat.succ_le_of_lt hij)
  rw [Nat.succ_mul] at hsteps
  exact FlatRegister.not_share_of_reach_le (by omega)

end

/-- Where no address is clamped, words of at most four bytes lie within the extent, words of
four bytes reach its end, and repetitions that are not reported share no byte. -/
theorem instances_extent {around : Surroundings} {address : UInt64} {r : RegisterDecl}
    (hwords : wordSize around.width ≤ 4) (hfit : address.toNat + r.exactExtent ≤ max64) :
    r.extent.toNat = r.exactExtent ∧
      (∀ x ∈ r.instances around address,
        address.toNat ≤ x.offset.toNat ∧ x.reach ≤ address.toNat + r.extent.toNat) ∧
      (wordSize around.width = 4 → r.Counted →
        ∃ x ∈ r.instances around address, x.reach = address.toNat + r.extent.toNat) ∧
      r.instances around address = (List.range r.repetitions).flatMap (r.repetition around address) ∧
      ∀ path, 2 ≤ (r.count.getD 1).toNat → r.strideIssue (pathBelow path r.name) ∉ r.strideIssues path →
        (List.range r.repetitions).Pairwise fun i j =>
          ∀ x ∈ r.repetition around address i, ∀ y ∈ r.repetition around address j, ¬ x.Share y := by
  rw [toNat_extent hfit]
  refine ⟨rfl, fun x hx => mem_instances_within hfit hwords hx, exists_reach_eq hfit, instances_eq_flatMap _ _ _, ?_⟩
  intro path hcount hsilent
  exact repetitions_apart hfit hwords (size_le_of_not_reported hcount hsilent)

/-- A group of a register and an array, twice, at an address that is not its own offset. -/
theorem instances_extent_nested :
    let r : RegisterDecl :=
      { ofOffset "g" 8 with
        count := some 2, stride := some 16
        registers := [.ofOffset "a" 0, { ofOffset "b" 4 with count := some 2, stride := some 4 }] }
    let around : Surroundings := { stem := "", access := none, block := "block", width := 32 }
    wordSize around.width = 4 ∧ r.Counted ∧ r.strideIssues "block" = [] ∧ r.extent = 28 ∧
      (∃ x ∈ r.instances around 0x100, x.reach = 0x100 + 28) ∧
      ∀ x ∈ r.repetition around 0x100 0, ∀ y ∈ r.repetition around 0x100 1, ¬ x.Share y := by
  intro r around
  have hfit : (0x100 : UInt64).toNat + r.exactExtent ≤ max64 := by decide
  have hcounted : r.Counted := by simp [r, Counted, CountedAll, ofOffset]
  have hsilent : r.strideIssues "block" = [] := by cbv
  obtain ⟨hextent, -, hlast, -, hapart⟩ := instances_extent (show wordSize around.width ≤ 4 by decide) hfit
  have hbytes : r.extent = 28 := UInt64.toNat.inj (hextent.trans (by decide))
  refine ⟨by decide, hcounted, hsilent, hbytes, ?_, ?_⟩
  · have hend := hlast (by decide) hcounted
    rw [hbytes] at hend
    exact hend
  · have hpairs := hapart "block" (by decide) (by simp [hsilent])
    exact List.rel_of_pairwise_cons hpairs (List.mem_singleton_self 1)

/-- An extent that no word can hold is the largest word, which says nothing about where
registers end, and the strides say nothing about registers whose addresses are clamped. -/
theorem instances_beyond_extent :
    let r : RegisterDecl := { ofOffset "a" 0 with count := some 3, stride := some (clamp64 max64) }
    let around : Surroundings := { stem := "", access := none, block := "block", width := 32 }
    wordSize around.width = 4 ∧ (0 : UInt64).toNat + r.extent.toNat ≤ max64 ∧ r.Counted ∧
      r.strideIssues "block" = [] ∧
      (∃ x ∈ r.instances around 0, (0 : UInt64).toNat + r.extent.toNat < x.reach) ∧
      ∃ x ∈ r.repetition around 0 1, ∃ y ∈ r.repetition around 0 2, x.Share y := by
  intro r around
  refine ⟨by decide, by decide, by simp [r, Counted, CountedAll, ofOffset], by cbv, ?_, ?_⟩
  · decide
  · refine ⟨_, List.mem_singleton_self _, _, List.mem_singleton_self _, max64, ?_, ?_⟩
    · exact ⟨by decide, by decide⟩
    · exact ⟨by decide, by decide⟩

/-! ## What is reported -/

/-- The names down to the last of some turns, from those around them. -/
def pathTo (path : String) (ts : List Turn) : String := ts.foldl (fun path t => pathBelow path t.decl.name) path

theorem mem_strideIssuesAll {path : String} {r : RegisterDecl} {rs : List RegisterDecl} {i : Issue} (hr : r ∈ rs)
    (hi : i ∈ r.strideIssues path) : i ∈ strideIssuesAll path rs := by
  induction rs with
  | nil => cases hr
  | cons s rs ih =>
    rw [strideIssuesAll]
    rcases List.mem_cons.1 hr with rfl | hr
    · exact List.mem_append_left _ hi
    · exact List.mem_append_right _ (ih hr)

namespace Descent
variable {rs : List RegisterDecl} {t : Turn} {outer inner : List Turn}

/-- A declaration whose repetitions are closer together than its size is reported at any
depth. -/
theorem reported (h : Descent rs (outer ++ t :: inner)) (path : String) (hcount : 2 ≤ (t.decl.count.getD 1).toNat)
    (hstride : t.decl.stride.getD 0 < t.decl.size) :
    t.decl.strideIssue (pathTo path (outer ++ [t])) ∈ strideIssuesAll path rs := by
  induction outer generalizing rs path with
  | nil =>
    refine mem_strideIssuesAll (cons_iff.1 h).1 ?_
    by_contra hnot
    exact absurd (size_le_of_not_reported hcount hnot) (UInt64.not_le.2 hstride)
  | cons u outer ih =>
    refine mem_strideIssuesAll (cons_iff.1 h).1 ?_
    rw [strideIssues_eq]
    exact List.mem_append_right _ (ih (h.inside (by simp)) _)

/-- The registers below a turn lie within the size of its declaration. -/
theorem inner_le (h : Descent rs (outer ++ t :: inner)) : Turn.distanceAll inner + 4 ≤ t.decl.exactSize := by
  obtain ⟨rs', hsuffix⟩ := h.suffix
  obtain ⟨-, -, ⟨hleaf, rfl⟩ | ⟨hgroup, hinner⟩⟩ := cons_iff.1 hsuffix
  · exact Nat.le_of_eq (exactSize_leaf hleaf).symm
  · rw [exactSize_group hgroup]
    exact hinner.stop_le

end Descent

end RegisterDecl

/-- No register of the block has an address that is clamped. -/
def AddressBlock.Unclamped (b : AddressBlock) : Prop :=
  ∀ o ∈ RegisterDecl.occurrencesAll b.registers, b.baseAddress.toNat + o.distance ≤ max64

theorem AddressBlock.Unclamped.reach_register {b : AddressBlock} {o : Occurrence} (h : b.Unclamped)
    (ho : o ∈ RegisterDecl.occurrencesAll b.registers) :
    (b.register o).reach = b.baseAddress.toNat + o.distance + wordSize b.registerWidth := by
  have hoffset : (b.register o).offset.toNat = b.baseAddress.toNat + o.distance :=
    (toNat_clamp64 _).trans (Nat.min_eq_left (h o ho))
  rw [FlatRegister.reach, hoffset, b.width_register]

namespace MemoryMap

theorem mem_validate_of_strides {maps : List MemoryMap} {m : MemoryMap} {b : AddressBlock} {rs : List FlatRegister}
    {i : Issue} (hm : m ∈ maps) (hb : b ∈ m.addressBlocks)
    (hi : i ∈ RegisterDecl.strideIssuesAll b.name b.registers) : i ∈ validate maps rs :=
  List.mem_append_left _ (List.mem_flatMap.2 ⟨m, hm, List.mem_flatMap.2 ⟨b, hb, hi⟩⟩)

/-- Of a declaration that is repeated, at any depth and in a block of any width, take one
repetition and a register in it. If the register ends further from the start of the
repetition than the stride, by more than its words exceed four bytes, the declaration is
reported. -/
theorem strides_reported {maps : List MemoryMap} {m : MemoryMap} {b : AddressBlock} {o : Occurrence} {t : Turn}
    {outer inner : List Turn} (hm : m ∈ maps) (hb : b ∈ m.addressBlocks) (hexact : b.Unclamped)
    (ho : o ∈ RegisterDecl.occurrencesAll b.registers) (hturns : o.turns = outer ++ t :: inner)
    (hcount : 2 ≤ (t.decl.count.getD 1).toNat)
    (hlong : b.baseAddress.toNat + Turn.distanceAll (outer ++ [t]) + (t.decl.stride.getD 0).toNat +
      (wordSize b.registerWidth - 4) < (b.register o).reach) :
    t.decl.strideIssue (RegisterDecl.pathTo b.name (outer ++ [t])) ∈ validate maps (flatten maps) := by
  have hdescent := RegisterDecl.mem_occurrencesAll_iff.1 ho
  rw [hturns] at hdescent
  have hsize := hdescent.inner_le
  rw [hexact.reach_register ho, Occurrence.distance_eq, hturns] at hlong
  simp only [Turn.distanceAll_append, Turn.distanceAll_cons] at hlong
  have hnil : Turn.distanceAll [] = 0 := rfl
  have hstride : (t.decl.stride.getD 0).toNat < Turn.distanceAll inner + 4 := by omega
  -- The same register of the second repetition has an address, so the stride is no largest word.
  have hroom : (t.decl.stride.getD 0).toNat + Turn.distanceAll inner ≤ max64 := by
    have hsecond : 1 < t.decl.repetitions := by
      unfold RegisterDecl.repetitions
      split <;> omega
    obtain ⟨o', ho', hturns'⟩ := (hdescent.at_index hsecond).exists_occurrence
    have := hexact o' ho'
    rw [Occurrence.distance_eq, hturns', Turn.distanceAll_append, Turn.distanceAll_cons, Turn.distance_mk] at this
    omega
  refine mem_validate_of_strides hm hb (hdescent.reported b.name hcount ?_)
  rw [UInt64.lt_iff_toNat_lt, RegisterDecl.size_eq_clamp64, toNat_clamp64]
  rw [max64] at *
  omega

/-- A group of two registers whose repetitions are one word apart, inside another group. -/
theorem strides_reported_nested :
    let g : RegisterDecl :=
      { RegisterDecl.ofOffset "g" 4 with
        count := some 2, stride := some 4, registers := [.ofOffset "a" 0, .ofOffset "b" 4] }
    let h : RegisterDecl := { RegisterDecl.ofOffset "h" 8 with registers := [g] }
    let b : AddressBlock := { AddressBlock.ofAddress "block" 0x100 with registers := [h] }
    Issue.strideTooSmall "block.h.g" 4 8 ∈ validate [⟨"m", "", [b]⟩] (flatten [⟨"m", "", [b]⟩]) := by
  intro g h b
  have hexact : b.Unclamped := by
    unfold AddressBlock.Unclamped
    decide
  have hb : RegisterDecl.ofOffset "b" 4 ∈ g.registers := List.mem_cons_of_mem _ (List.mem_singleton_self _)
  have ho : ⟨[⟨h, 0⟩, ⟨g, 1⟩], ⟨.ofOffset "b" 4, 0⟩⟩ ∈ RegisterDecl.occurrencesAll b.registers := by
    refine RegisterDecl.mem_occurrencesAll_iff.2 (.group (List.mem_singleton_self h) (by decide) rfl ?_)
    exact .group (List.mem_singleton_self g) (by decide) rfl (.leaf hb (by decide) rfl)
  have hturns : (⟨[⟨h, 0⟩, ⟨g, 1⟩], ⟨.ofOffset "b" 4, 0⟩⟩ : Occurrence).turns =
      [⟨h, 0⟩] ++ ⟨g, 1⟩ :: [⟨.ofOffset "b" 4, 0⟩] := rfl
  exact strides_reported (List.mem_singleton_self _) (List.mem_singleton_self b) hexact ho hturns (by decide)
    (by decide)

/-- Where words have eight bytes, an array of them at a stride of four bytes is not reported. -/
theorem strides_unreported_wide :
    let a : RegisterDecl := { RegisterDecl.ofOffset "a" 0 with count := some 2, stride := some 4 }
    let b : AddressBlock := { AddressBlock.ofAddress "block" 0 with defaultRegWidth := 64, registers := [a] }
    b.Unclamped ∧
      (∃ o ∈ RegisterDecl.occurrencesAll b.registers, o.turns = [] ++ ⟨a, 0⟩ :: [] ∧ 2 ≤ (a.count.getD 1).toNat ∧
        b.baseAddress.toNat + Turn.distanceAll ([] ++ [⟨a, 0⟩]) + (a.stride.getD 0).toNat < (b.register o).reach) ∧
      (validate [⟨"m", "", [b]⟩] (flatten [⟨"m", "", [b]⟩])).filter Issue.isStride = [] := by
  intro a b
  refine ⟨?_, ?_, ?_⟩
  · unfold AddressBlock.Unclamped
    decide
  · refine ⟨⟨[], ⟨a, 0⟩⟩, ?_, rfl, by decide, by decide⟩
    exact RegisterDecl.mem_occurrencesAll_iff.2 (.leaf (List.mem_singleton_self a) (by decide) rfl)
  · cbv

end MemoryMap

end CoreForge
