import CoreForge.Proofs.Editing
import CoreForge.Proofs.Extents
import CoreForge.Proofs.Overlaps
/-!
# Editing and validation

The editor moves declarations by their footprints, and the validator compares the
registers they stand for. Where the footprints are apart and hold these registers, an
insertion leaves the layout of a block without issues: `AddressBlock.insert_layout`.
Neither follows from a clean layout: `AddressBlock.insert_can_overlap`.
-/

namespace CoreForge

open CoreForge.Number CoreForge.Placed

/-! ## Registers that are out of each other's way -/

namespace FlatRegister

/-- Two registers do not get in each other's way, in whichever order they come. -/
def Aside (a b : FlatRegister) : Prop := a.Clears b ∨ b.Clears a

theorem Aside.symm {a b : FlatRegister} (h : a.Aside b) : b.Aside a := Or.symm h

theorem Aside.clears {a b : FlatRegister} (h : a.Aside b) (hle : a.offset ≤ b.offset) : a.Clears b := by
  rcases h with h | ⟨hstop, hne⟩
  · exact h
  · rw [UInt64.le_iff_toNat_le, toNat_stop, reach] at hstop
    rw [UInt64.le_iff_toNat_le] at hle
    have := toNat_le_max64 b.offset
    exact absurd (UInt64.toNat.inj (by omega)) hne

end FlatRegister

namespace MemoryMap

theorem aside_flatten_iff (maps : List MemoryMap) :
    (flatten maps).Pairwise FlatRegister.Clears ↔ (unrollAll maps).Pairwise FlatRegister.Aside := by
  have hperm : (flatten maps).Perm (unrollAll maps) := List.mergeSort_perm _ _
  rw [← hperm.pairwise_iff fun h => FlatRegister.Aside.symm h]
  exact ⟨fun h => h.imp .inl, fun h => (h.and (ascending_flatten maps)).imp fun hab => hab.1.clears hab.2⟩

/-- Registers out of each other's way share nothing, and below the last address nothing
shared means that. -/
theorem sharing_eq_nil_of_aside {maps : List MemoryMap} (h : (unrollAll maps).Pairwise FlatRegister.Aside) :
    (validate maps (flatten maps)).filter Issue.isSharing = [] := by
  rw [filter_validate_eq_nil_iff]
  exact FlatRegister.verdicts_of_clears FlatRegister.furthest_none (by simp) ((aside_flatten_iff maps).2 h)

theorem aside_of_sharing_eq_nil {maps : List MemoryMap} (hlow : ∀ r ∈ flatten maps, r.offset.toNat < max64)
    (h : (validate maps (flatten maps)).filter Issue.isSharing = []) :
    (unrollAll maps).Pairwise FlatRegister.Aside := by
  rw [filter_validate_eq_nil_iff] at h
  exact (aside_flatten_iff maps).1 (FlatRegister.clears_of_verdicts FlatRegister.furthest_none hlow h).2

end MemoryMap

/-! ## The addresses of a block -/

/-- A word at an exact address is clear of a later one, as far as words tell. -/
def Ahead (x y : Nat) : Prop := x < max64 ∧ min (x + 4) max64 ≤ y

/-- Words at these addresses do not get in each other's way. -/
def Free (addresses : List Nat) : Prop := addresses.Pairwise fun x y => Ahead x y ∨ Ahead y x

/-- The exact addresses of the registers of some declarations in a block. -/
def addresses (base : Nat) (rs : List RegisterDecl) : List Nat :=
  rs.flatMap fun r => r.places.map fun p => base + (r.offset.toNat + p)

namespace AddressBlock

/-- The memory map with nothing but the block. -/
def alone (b : AddressBlock) : List MemoryMap := [{ name := "", description := "", addressBlocks := [b] }]

theorem unrollAll_alone (b : AddressBlock) :
    MemoryMap.unrollAll b.alone = (RegisterDecl.occurrencesAll b.registers).map b.register := by
  simp only [MemoryMap.unrollAll, alone, List.flatMap_cons, List.flatMap_nil, List.append_nil, unroll_eq]

theorem addresses_eq (b : AddressBlock) :
    addresses b.baseAddress.toNat b.registers =
      (RegisterDecl.occurrencesAll b.registers).map fun o => b.baseAddress.toNat + o.distance := by
  rw [RegisterDecl.occurrencesAll_eq, addresses, List.map_flatMap]
  refine List.flatMap_congr fun r _ => ?_
  have h := congrArg (List.map (b.baseAddress.toNat + ·)) (RegisterDecl.map_distance r)
  simp only [List.map_map] at h
  exact h.symm

variable {b : AddressBlock}

theorem wordSize_register (hwidth : b.registerWidth = 32) (o : Occurrence) : wordSize (b.register o).width = 4 := by
  rw [b.width_register, hwidth]
  decide

theorem clears_register_iff (hwidth : b.registerWidth = 32) (o o' : Occurrence) :
    (b.register o).Clears (b.register o') ↔
      Ahead (b.baseAddress.toNat + o.distance) (b.baseAddress.toNat + o'.distance) := by
  have hbytes := wordSize_register hwidth o
  unfold FlatRegister.Clears Ahead
  rw [UInt64.le_iff_toNat_le, FlatRegister.toNat_stop, FlatRegister.reach, hbytes, Ne, ← UInt64.toNat_inj]
  simp only [register, toNat_clamp64]
  omega

theorem aside_alone_iff (hwidth : b.registerWidth = 32) :
    (MemoryMap.unrollAll b.alone).Pairwise FlatRegister.Aside ↔
      Free (addresses b.baseAddress.toNat b.registers) := by
  rw [unrollAll_alone, addresses_eq, Free, List.pairwise_map, List.pairwise_map]
  simp only [FlatRegister.Aside, clears_register_iff hwidth]

theorem low_alone_iff :
    (∀ r ∈ MemoryMap.flatten b.alone, r.offset.toNat < max64) ↔
      ∀ x ∈ addresses b.baseAddress.toNat b.registers, x < max64 := by
  simp only [MemoryMap.mem_flatten, unrollAll_alone, addresses_eq, List.forall_mem_map, register, toNat_clamp64]
  refine forall₂_congr fun o _ => ?_
  omega

/-! ## Issues about the layout -/

/-- The issues about the layout of a block: repetitions too close together, and shared
bytes. -/
def layoutIssues (b : AddressBlock) : List Issue :=
  (validate b.alone (MemoryMap.flatten b.alone)).filter fun i => i.isStride || i.isSharing

theorem isStride_of_mem_issuesFrom {furthest : Option FlatRegister} {rs : List FlatRegister} {i : Issue}
    (h : i ∈ FlatRegister.issuesFrom furthest rs) : i.isStride = false := by
  induction rs generalizing furthest with
  | nil => cases h
  | cons r rs ih =>
    simp only [FlatRegister.issuesFrom, List.mem_append] at h
    rcases h with (h | h) | h
    · have hsharing := FlatRegister.isSharing_of_positionIssue? (Option.mem_toList.1 h)
      cases i <;> simp_all [Issue.isSharing, Issue.isStride]
    · exact (FlatRegister.of_mem_fieldIssues h).2
    · exact ih h

theorem strideIssuesAll_eq_nil_iff (path : String) (rs : List RegisterDecl) :
    RegisterDecl.strideIssuesAll path rs = [] ↔ ∀ r ∈ rs, RegisterDecl.strideIssues path r = [] := by
  induction rs with
  | nil => simp [RegisterDecl.strideIssuesAll]
  | cons r rs ih => simp [RegisterDecl.strideIssuesAll, ih]

theorem layoutIssues_eq_nil_iff :
    b.layoutIssues = [] ↔ (∀ r ∈ b.registers, RegisterDecl.strideIssues b.name r = []) ∧
      (validate b.alone (MemoryMap.flatten b.alone)).filter Issue.isSharing = [] := by
  rw [← strideIssuesAll_eq_nil_iff]
  have hvalidate : validate b.alone (MemoryMap.flatten b.alone) =
      RegisterDecl.strideIssuesAll b.name b.registers ++ FlatRegister.issuesFrom none (MemoryMap.flatten b.alone) := by
    simp [validate, alone]
  unfold layoutIssues
  rw [hvalidate, List.filter_eq_nil_iff, List.filter_eq_nil_iff, List.eq_nil_iff_forall_not_mem]
  simp only [List.mem_append]
  constructor
  · intro h
    refine ⟨fun i hi => ?_, fun i hi hshare => h i hi (by simp [hshare])⟩
    exact h i (.inl hi) (by simp [RegisterDecl.isStride_of_mem_strideIssuesAll _ _ i hi])
  · rintro ⟨hnone, hshare⟩ i hi hlayout
    rcases Bool.or_eq_true_iff.1 hlayout with hstride | hsharing
    · rcases hi with hi | hi
      · exact hnone i hi
      · rw [isStride_of_mem_issuesFrom hi] at hstride
        cases hstride
    · exact hshare i hi hsharing

end AddressBlock

/-! ## Moved declarations -/

/-- A declaration before and after an insertion. Its registers had room for themselves
within its footprint, and it was moved forward by one word at most. -/
structure Shifted (base : Nat) (r r' : RegisterDecl) : Prop where
  places : r'.places = r.places
  footprint : r'.footprint = r.footprint
  start_le : r'.offset.toNat ≤ r.offset.toNat + 4
  contained : ∀ p ∈ r.places, min (p + 4) max64 ≤ r.footprint.toNat
  low : ∀ p ∈ r.places, base + (r.offset.toNat + p) < max64
  free : Free (r.places.map fun p => base + (r.offset.toNat + p))

theorem start_register (r : RegisterDecl) : start r = r.offset := rfl

theorem reach_register (r : RegisterDecl) : reach r = r.offset.toNat + r.footprint.toNat := rfl

/-- All registers of one declaration are clear of those of a later one. -/
def AllAhead (base : Nat) (r s : RegisterDecl) : Prop :=
  ∀ p ∈ r.places, ∀ q ∈ s.places, Ahead (base + (r.offset.toNat + p)) (base + (s.offset.toNat + q))

namespace Shifted
variable {base : Nat} {r r' s s' : RegisterDecl}

/-- The registers of a moved declaration are still out of each other's way. -/
theorem free_moved (h : Shifted base r r') : Free (r'.places.map fun p => base + (r'.offset.toNat + p)) := by
  have hfree := h.free
  have hle := h.start_le
  rw [Free, List.pairwise_map] at hfree ⊢
  rw [h.places]
  refine hfree.imp_of_mem fun {p q} hp hq hpq => ?_
  have hlowp := h.low p hp
  have hlowq := h.low q hq
  -- The later one of the two was below the last address, so the earlier one still is.
  unfold Ahead at *
  rcases hpq with hpq | hpq
  · left
    omega
  · right
    omega

/-- The registers of two declarations that are before each other, and were before, are
out of each other's way. -/
theorem ahead (h : Shifted base r r') (hs : Shifted base s s') (hgap : reach r ≤ (start s).toNat)
    (hbefore : Before r' s') : AllAhead base r' s' := by
  intro p hp q hq
  rw [h.places] at hp
  rw [hs.places] at hq
  have hcont := h.contained p hp
  have hlow := hs.low q hq
  have hle := h.start_le
  rw [Before, UInt64.le_iff_toNat_le, toNat_stop, reach_register, start_register, h.footprint] at hbefore
  rw [reach_register, start_register] at hgap
  unfold Ahead
  generalize max64 = top at *
  omega

/-- A declaration that was not moved forward is out of the way of a new register behind
it. -/
theorem ahead_new (h : Shifted base r r') (hle : r'.offset ≤ r.offset) (hbefore : Before r' s) :
    ∀ p ∈ r'.places, Ahead (base + (r'.offset.toNat + p)) (base + s.offset.toNat) := by
  intro p hp
  rw [h.places] at hp
  have hcont := h.contained p hp
  have hlow := h.low p hp
  rw [UInt64.le_iff_toNat_le] at hle
  rw [Before, UInt64.le_iff_toNat_le, toNat_stop, reach_register, start_register, h.footprint] at hbefore
  unfold Ahead
  generalize max64 = top at *
  omega

/-- A new register that starts no later than a declaration did is out of the way of it. -/
theorem new_ahead (h : Shifted base r r') (hfoot : s.footprint.toNat = 4) (hle : s.offset ≤ r.offset)
    (hbefore : Before s r') : ∀ p ∈ r'.places, Ahead (base + s.offset.toNat) (base + (r'.offset.toNat + p)) := by
  intro p hp
  rw [h.places] at hp
  have hlow := h.low p hp
  rw [UInt64.le_iff_toNat_le] at hle
  rw [Before, UInt64.le_iff_toNat_le, toNat_stop, reach_register, start_register, hfoot] at hbefore
  unfold Ahead
  generalize max64 = top at *
  omega

end Shifted

theorem places_of_kept {r r' : RegisterDecl} (h : Kept r r') : r'.places = r.places := by
  have hbare : ({ r' with offset := 0 } : RegisterDecl) = { r with offset := 0 } := h.bare
  rw [RegisterDecl.places, RegisterDecl.places, hbare]

theorem strideIssues_of_kept {path : String} {r r' : RegisterDecl} (h : Kept r r') :
    RegisterDecl.strideIssues path r' = RegisterDecl.strideIssues path r := by
  have hbare : ({ r' with offset := 0 } : RegisterDecl) = { r with offset := 0 } := h.bare
  rw [← RegisterDecl.strideIssues_setOffset path r' 0, hbare, RegisterDecl.strideIssues_setOffset]

/-- A new register is a single word. -/
theorem places_fresh (items : List RegisterDecl) : (fresh items).places = [0] := rfl

theorem strideIssues_fresh (path : String) (items : List RegisterDecl) :
    RegisterDecl.strideIssues path (fresh items) = [] := rfl

theorem pairwise_of_forall₂ {α β : Type} {R : α → β → Prop} {S : α → α → Prop} {T U : β → β → Prop}
    {xs : List α} {ys : List β} (h : List.Forall₂ R xs ys) (hxs : xs.Pairwise S) (hys : ys.Pairwise T)
    (hU : ∀ a a' b b', R a b → R a' b' → S a a' → T b b' → U b b') : ys.Pairwise U := by
  induction h with
  | nil => exact .nil
  | cons hab htail ih =>
    obtain ⟨hx, hxs⟩ := List.pairwise_cons.1 hxs
    obtain ⟨hy, hys⟩ := List.pairwise_cons.1 hys
    refine List.pairwise_cons.2 ⟨fun b' hb' => ?_, ih hxs hys⟩
    obtain ⟨a', ha', hab'⟩ := exists_of_forall₂ htail b' hb'
    exact hU _ _ _ _ hab hab' (hx a' ha') (hy b' hb')

/-- Declarations that are apart and before each other, those behind a new register no
earlier than it, have registers ahead of each other. -/
theorem allAhead_splice {base : Nat} {front back front' back' : List RegisterDecl} {x : RegisterDecl}
    (hfront : List.Forall₂ (fun d d' => Shifted base d d' ∧ d'.offset ≤ d.offset) front front')
    (hback : List.Forall₂ (fun d d' => Shifted base d d' ∧ x.offset ≤ d.offset) back back')
    (hx : x.places = [0]) (hfoot : x.footprint.toNat = 4)
    (hgaps : (front ++ back).Pairwise fun a b => reach a ≤ (start b).toNat)
    (hordered : (front' ++ x :: back').Pairwise Before) : (front' ++ x :: back').Pairwise (AllAhead base) := by
  obtain ⟨-, hbehind, hfrontx⟩ := List.pairwise_append.1 hordered
  have hshifted : List.Forall₂ (Shifted base) (front ++ back) (front' ++ back') :=
    List.rel_append (hfront.imp fun _ _ h => h.1) (hback.imp fun _ _ h => h.1)
  have hpairs := pairwise_of_forall₂ hshifted hgaps
    (hordered.sublist (List.Sublist.append_left (List.sublist_cons_self x back') front'))
    fun _ _ _ _ hs hs' hgap hbefore => hs.ahead hs' hgap hbefore
  obtain ⟨hpairsF, hpairsB, hcross⟩ := List.pairwise_append.1 hpairs
  refine List.pairwise_append.2 ⟨hpairsF, List.pairwise_cons.2 ⟨fun b hb => ?_, hpairsB⟩, fun a ha b hb => ?_⟩
  · obtain ⟨d, -, hd, hle⟩ := exists_of_forall₂ hback b hb
    rw [AllAhead, hx]
    simpa using hd.new_ahead hfoot hle (List.rel_of_pairwise_cons hbehind hb)
  · rcases List.mem_cons.1 hb with rfl | hb
    · obtain ⟨d, -, hd, hle⟩ := exists_of_forall₂ hfront a ha
      rw [AllAhead, hx]
      simpa using hd.ahead_new hle (hfrontx a ha b (by simp))
    · exact hcross a ha b hb

section
variable {base : Nat} {items : List RegisterDecl}
  (hcont : ∀ d ∈ items, ∀ p ∈ d.places, min (p + 4) max64 ≤ d.footprint.toNat)
  (hlow : ∀ a ∈ addresses base items, a < max64) (hfree : Free (addresses base items))
include hcont hlow hfree

/-- An old declaration in another place, at most one word further on. -/
theorem shifted_of_kept {d d' : RegisterDecl} (hd : d ∈ items) (hk : Kept d d')
    (hle : d'.offset.toNat ≤ d.offset.toNat + 4) : Shifted base d d' where
  places := places_of_kept hk
  footprint := hk.footprint
  start_le := hle
  contained := hcont d hd
  low p hp := hlow _ (List.mem_flatMap.2 ⟨d, hd, List.mem_map.2 ⟨p, hp, rfl⟩⟩)
  free := (List.pairwise_flatMap.1 hfree).1 d hd

/-- After an insertion the registers are out of each other's way when they were before. -/
theorem free_splice {axis : Axis} {ys front back front' back' : List RegisterDecl} {x : RegisterDecl}
    (h : Splice axis items ys front back front' back' x)
    (hgaps : (inOrder items).Pairwise fun a b => reach a ≤ (start b).toNat) : Free (addresses base ys) := by
  have hmem := forall_mem_of_inOrder h.old fun _ hd => hd
  have hfront : List.Forall₂ (fun d d' => Shifted base d d' ∧ d'.offset ≤ d.offset) front front' := by
    have := (List.forall₂_and_left _ _).2 ⟨fun d hd => hmem d (List.mem_append_left _ hd), h.backward⟩
    refine this.imp fun d d' ⟨hd, hk, hle⟩ => ⟨shifted_of_kept hcont hlow hfree hd hk ?_, hle⟩
    exact Nat.le_trans (UInt64.le_iff_toNat_le.1 hle) (Nat.le_add_right _ _)
  have hback : List.Forall₂ (fun d d' => Shifted base d d' ∧ x.offset ≤ d.offset) back back' := by
    have := (List.forall₂_and_left _ _).2
      ⟨fun d hd => And.intro (hmem d (List.mem_append_right _ hd)) (h.behind d hd), h.forward⟩
    exact this.imp fun d d' ⟨⟨hd, hx⟩, hk, hle⟩ => ⟨shifted_of_kept hcont hlow hfree hd hk hle, hx⟩
  have hx : x.places = [0] := by rw [places_of_kept h.kind, places_fresh]
  have hfoot : x.footprint.toNat = 4 := by
    have := h.kind.footprint
    rw [footprint_fresh] at this
    exact congrArg UInt64.toNat this
  rw [h.result, Free, addresses, List.pairwise_flatMap]
  constructor
  · intro d' hd'
    rcases List.mem_append.1 hd' with hd' | hd'
    · obtain ⟨d, -, hd, -⟩ := exists_of_forall₂ hfront d' hd'
      exact hd.free_moved
    · rcases List.mem_cons.1 hd' with rfl | hd'
      · rw [hx]
        exact List.pairwise_singleton _ _
      · obtain ⟨d, -, hd, -⟩ := exists_of_forall₂ hback d' hd'
        exact hd.free_moved
  -- Declarations of the result are in order, and so are their registers.
  · refine (allAhead_splice hfront hback hx hfoot (h.old ▸ hgaps) h.ordered).imp fun hab => ?_
    simp only [List.forall_mem_map]
    exact fun p hp q hq => .inl (hab p hp q hq)

end

theorem strideIssues_splice {axis : Axis} {items ys front back front' back' : List RegisterDecl} {x : RegisterDecl}
    {path : String} (h : Splice axis items ys front back front' back' x)
    (hnone : ∀ d ∈ items, RegisterDecl.strideIssues path d = []) :
    ∀ d ∈ ys, RegisterDecl.strideIssues path d = [] := by
  intro d hd
  rcases h.mem_items d hd with rfl | ⟨a, ha, hk, -⟩
  · rw [strideIssues_of_kept h.kind]
    exact strideIssues_fresh path items
  · rw [strideIssues_of_kept hk]
    exact hnone a ha

/-! ## Insertions into a clean layout -/

namespace RegisterDecl

/-- The registers of the declaration lie within its footprint. -/
def HoldsRegisters (r : RegisterDecl) : Prop := ∀ p ∈ r.places, p + 4 ≤ r.footprint.toNat

instance (r : RegisterDecl) : Decidable r.HoldsRegisters :=
  inferInstanceAs (Decidable (∀ p ∈ r.places, p + 4 ≤ r.footprint.toNat))

end RegisterDecl

namespace AddressBlock

theorem gaps_of_apart {items : List RegisterDecl} (h : items.Pairwise Apart) :
    (inOrder items).Pairwise fun a b => reach a ≤ (start b).toNat := by
  have hsound : Sound (max64 + max64) items := by
    refine ⟨fun d _ => d.footprint_pos, h, fun d _ => ?_⟩
    exact Nat.add_le_add (toNat_le_max64 _) (toNat_le_max64 _)
  exact hsound.gaps

/-- An insertion into a block without layout issues causes none, where the footprints
of the declarations are apart and those that are not repeated hold their registers. -/
theorem insert_layout {b : AddressBlock} {selected : Option Nat} {ys : List RegisterDecl} {index : Nat}
    (hwidth : b.registerWidth = 32) (hlow : ∀ x ∈ MemoryMap.flatten b.alone, x.offset.toNat < max64)
    (hclean : b.layoutIssues = []) (hapart : b.registers.Pairwise Apart)
    (hholds : ∀ d ∈ b.registers, (d.count.getD 1).toNat ≤ 1 → d.HoldsRegisters)
    (h : insertRegisterAfter b.registers selected = .done ys index ∨
      insertRegisterBefore b.registers selected = .done ys index) :
    layoutIssues { b with registers := ys } = [] := by
  obtain ⟨hstrides, hsharing⟩ := layoutIssues_eq_nil_iff.1 hclean
  have hocc : ∀ d ∈ b.registers, 0 < Placed.footprint d := fun d _ => d.footprint_pos
  have hgaps := gaps_of_apart hapart
  have hcont : ∀ d ∈ b.registers, ∀ p ∈ d.places, min (p + 4) max64 ≤ d.footprint.toNat := by
    intro d hd p hp
    by_cases hcount : 1 < (d.count.getD 1).toNat
    · exact RegisterDecl.stop_le_footprint (hstrides d hd) hcount hp
    · exact Nat.le_trans (Nat.min_le_left _ _) (hholds d hd (by omega) p hp)
  have hfree := (aside_alone_iff hwidth).1 (MemoryMap.aside_of_sharing_eq_nil hlow hsharing)
  obtain ⟨axis, front, back, front', back', x, hsplice⟩ :
      ∃ axis front back front' back' x, Splice axis b.registers ys front back front' back' x := by
    rcases h with h | h
    · obtain ⟨front, back, front', back', x, hsplice, -⟩ :=
        insertAfter_splice hocc hgaps (Editor.suits_axis .registers) h
      exact ⟨_, front, back, front', back', x, hsplice⟩
    · obtain ⟨front, back, front', back', x, hsplice, -⟩ := insertBefore_splice hocc hgaps .unbounded h
      exact ⟨_, front, back, front', back', x, hsplice⟩
  have hnew := free_splice hcont (low_alone_iff.1 hlow) hfree hsplice hgaps
  rw [layoutIssues_eq_nil_iff]
  refine ⟨strideIssues_splice hsplice hstrides, MemoryMap.sharing_eq_nil_of_aside ?_⟩
  exact (aside_alone_iff (b := { b with registers := ys }) hwidth).2 hnew

/-- A group of two registers that is repeated, and a register that gives way to a new one
between them. -/
theorem insert_layout_array :
    let g : RegisterDecl :=
      { RegisterDecl.ofOffset "g" 8 with
        count := some 2, stride := some 8, registers := [.ofOffset "a" 0, .ofOffset "b" 4] }
    let b : AddressBlock := { AddressBlock.ofAddress "block" 0x100 with registers := [g, .ofOffset "c" 4] }
    ∃ ys i, insertRegisterBefore b.registers (some 0) = .done ys i ∧ layoutIssues { b with registers := ys } = [] := by
  intro g b
  have hinsert : insertRegisterBefore b.registers (some 0) = .done [.ofOffset "c" 0, .ofOffset "reg1" 4, g] 1 := by
    cbv
  refine ⟨_, _, hinsert, insert_layout rfl ?_ (by cbv) ?_ (by decide) (.inr hinsert)⟩
  · simp only [MemoryMap.mem_flatten]
    decide
  · exact List.pairwise_pair.2 (apart_of_reach (by decide : reach (RegisterDecl.ofOffset "c" 4) ≤ 8)).symm

/-- A clean layout that an insertion spoils. -/
structure Spoilt (b : AddressBlock) (selected : Option Nat) : Prop where
  width : b.registerWidth = 32
  low : ∀ x ∈ MemoryMap.flatten b.alone, x.offset.toNat < max64
  clean : b.layoutIssues = []
  spoilt : ∃ ys index, insertRegisterAfter b.registers selected = .done ys index ∧
    layoutIssues { b with registers := ys } ≠ []

/-- A clean layout alone is not enough, nor is either condition on the footprints: the
footprint of a group need not hold its registers, and a register may lie within the
footprint of an array. -/
theorem insert_can_overlap :
    let g : RegisterDecl := { RegisterDecl.ofOffset "g" 0 with registers := [.ofOffset "a" 0, .ofOffset "b" 4] }
    let a : RegisterDecl := { RegisterDecl.ofOffset "a" 0 with count := some 2, stride := some 16 }
    Spoilt { AddressBlock.ofAddress "block" 0 with registers := [g] } (some 0) ∧ [g].Pairwise Apart ∧
      Spoilt { AddressBlock.ofAddress "block" 0 with registers := [a, .ofOffset "b" 8, .ofOffset "c" 12] } (some 1) ∧
      ∀ d ∈ [a, .ofOffset "b" 8, .ofOffset "c" 12], d.HoldsRegisters := by
  intro g a
  have hgroup : insertRegisterAfter [g] (some 0) = .done [g, .ofOffset "reg1" 4] 1 := by cbv
  have harray : insertRegisterAfter [a, .ofOffset "b" 8, .ofOffset "c" 12] (some 1) =
      .done [a, .ofOffset "b" 8, .ofOffset "reg1" 12, .ofOffset "c" 16] 2 := by cbv
  refine ⟨⟨rfl, ?_, by cbv, _, _, hgroup, ?_⟩, List.pairwise_singleton _ _, ⟨rfl, ?_, by cbv, _, _, harray, ?_⟩, by decide⟩
  · simp only [MemoryMap.mem_flatten]
    decide
  · cbv
    simp
  · simp only [MemoryMap.mem_flatten]
    decide
  · cbv
    simp

end AddressBlock

end CoreForge
