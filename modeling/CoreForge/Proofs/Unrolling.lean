import CoreForge.Proofs.Words
import CoreForge.Registers.Flatten
/-!
# Unrolling is enumeration

A register of a memory map is one turn of a leaf inside one turn of every group around
it. `Occurrence` is such a path, and it determines the name, the address and the access
of the register with no accumulator and no ceiling but the last one. `flatten_sortedBy`:
the flat registers are those of the occurrences, stably sorted by address.
-/

namespace CoreForge

open CoreForge.Number

/-! ## Occurrences -/

/-- One repetition of a declaration. -/
structure Turn where
  decl : RegisterDecl
  index : Nat

namespace Turn

/-- The name of the declaration, with the index when it is repeated. -/
def label (t : Turn) : String :=
  if 1 < (t.decl.count.getD 1).toNat then t.decl.name ++ "_" ++ toString t.index else t.decl.name

/-- The bytes from the start of what is around the declaration to this repetition of it. -/
def distance (t : Turn) : Nat := t.decl.offset.toNat + t.index * (t.decl.stride.getD 0).toNat

end Turn

/-- A leaf inside groups, one turn of each. -/
structure Occurrence where
  /-- The groups, the outermost one first. -/
  groups : List Turn
  leaf : Turn

namespace Occurrence

/-- The occurrence inside one more group. -/
def within (t : Turn) (o : Occurrence) : Occurrence := { o with groups := t :: o.groups }

def name (o : Occurrence) : String := String.join (o.groups.map fun t => t.label ++ "_") ++ o.leaf.label

/-- The bytes from the start of the block. -/
def distance (o : Occurrence) : Nat := o.groups.foldr (fun t bytes => t.distance + bytes) o.leaf.distance

/-- The nearest access, that of the leaf first. -/
def access (o : Occurrence) : Option String := (o.leaf :: o.groups.reverse).findSome? (·.decl.access)

end Occurrence

namespace RegisterDecl

/-- The repetitions of a declaration. A leaf is there at least once. -/
def turns (r : RegisterDecl) : List Turn :=
  let count := (r.count.getD 1).toNat
  (List.range (if r.isGroup then count else max count 1)).map (⟨r, ·⟩)

mutual

/-- The occurrences of leaves in a declaration. -/
def occurrences : RegisterDecl → List Occurrence
  | ⟨name, offset, access, description, fields, count, stride, registers⟩ =>
    let turns := turns ⟨name, offset, access, description, fields, count, stride, registers⟩
    if registers.isEmpty then turns.map (⟨[], ·⟩)
    else turns.flatMap fun t => (occurrencesAll registers).map (.within t)

/-- The occurrences of leaves in some declarations. -/
def occurrencesAll : List RegisterDecl → List Occurrence
  | [] => []
  | r :: rs => occurrences r ++ occurrencesAll rs

end

end RegisterDecl

/-- The register that an occurrence in a block stands for. -/
def AddressBlock.register (b : AddressBlock) (o : Occurrence) : FlatRegister :=
  let access := normalizeAccess o.access
  { name := o.name
    offset := clamp64 (b.baseAddress.toNat + o.distance)
    width := if b.defaultRegWidth = 0 then 32 else b.defaultRegWidth
    block := b.name
    access
    description := o.leaf.decl.description
    fields := o.leaf.decl.fields.map (FieldDecl.flatten access) }

/-- The registers of all occurrences, in order of declaration. -/
def MemoryMap.enumeration (maps : List MemoryMap) : List FlatRegister :=
  maps.flatMap fun m => m.addressBlocks.flatMap fun b => (RegisterDecl.occurrencesAll b.registers).map b.register

/-! ## Unrolling -/

namespace Occurrence

/-- The register that an occurrence stands for in the middle of unrolling, with a base
that has not met a ceiling yet. -/
def unrolled (around : Surroundings) (base : Nat) (o : Occurrence) : FlatRegister :=
  let access := normalizeAccess (o.access <|> around.access)
  { name := around.stem ++ o.name
    offset := clamp64 (base + o.distance)
    width := around.width
    block := around.block
    access
    description := o.leaf.decl.description
    fields := o.leaf.decl.fields.map (FieldDecl.flatten access) }

theorem name_within (t : Turn) (o : Occurrence) : (o.within t).name = t.label ++ "_" ++ o.name := by
  simp only [name, within, List.map_cons, String.join_cons, String.append_assoc]

theorem distance_within (t : Turn) (o : Occurrence) : (o.within t).distance = t.distance + o.distance := rfl

theorem access_within (t : Turn) (o : Occurrence) : (o.within t).access = (o.access <|> t.decl.access) := by
  simp only [access, within, List.reverse_cons, ← List.cons_append, List.findSome?_append]
  cases (o.leaf :: o.groups.reverse).findSome? (·.decl.access) <;> cases h : t.decl.access <;> simp [h]

/-- What an occurrence inherits from a group can be passed to it or found on its path. -/
theorem unrolled_within (around : Surroundings) (base : Nat) (t : Turn) (o : Occurrence) :
    (o.within t).unrolled around base =
      o.unrolled { around with stem := around.stem ++ t.label ++ "_", access := t.decl.access <|> around.access }
        (base + t.distance) := by
  have haccess : ((o.within t).access <|> around.access) = (o.access <|> t.decl.access <|> around.access) := by
    rw [access_within]
    cases o.access <;> rfl
  simp only [unrolled, name_within, distance_within, haccess, String.append_assoc, Nat.add_assoc]
  rfl

end Occurrence

namespace RegisterDecl

theorem instanceOffset_clamp64 (m : Nat) (stride : UInt64) (index : Nat) :
    instanceOffset (clamp64 m) stride index = clamp64 (m + index * stride.toNat) := by
  rw [instanceOffset, mulSat_clamp64, addSat_clamp64_clamp64]

section
variable {r : RegisterDecl}

theorem occurrences_leaf (h : r.isGroup = false) : r.occurrences = r.turns.map (⟨[], ·⟩) := by
  cases r
  simp_all [occurrences, isGroup]

theorem occurrences_group (h : r.isGroup = true) :
    r.occurrences = r.turns.flatMap fun t => (occurrencesAll r.registers).map (.within t) := by
  cases r
  simp_all [occurrences, isGroup]

theorem instances_leaf (around : Surroundings) (base : Nat) (h : r.isGroup = false) :
    instances around (clamp64 (base + r.offset.toNat)) r =
      r.turns.map fun t => Occurrence.unrolled around base ⟨[], t⟩ := by
  cases r with
  | mk name offset access description fields count stride registers =>
    have hleaf : registers.isEmpty = true := by simpa [isGroup] using h
    rw [instances, if_pos hleaf]
    simp only [turns, isGroup, hleaf, List.map_map]
    refine List.map_congr_left fun i _ => ?_
    rw [instanceOffset_clamp64, Nat.add_assoc]
    simp [Occurrence.unrolled, Occurrence.name, Occurrence.distance, Occurrence.access, Turn.distance, Turn.label,
      instanceName]

theorem instances_group (around : Surroundings) (base : Nat) (h : r.isGroup = true) :
    instances around (clamp64 (base + r.offset.toNat)) r =
      r.turns.flatMap fun t =>
        instancesAll
          { around with stem := around.stem ++ t.label ++ "_", access := t.decl.access <|> around.access }
          (clamp64 (base + t.distance)) r.registers := by
  cases r with
  | mk name offset access description fields count stride registers =>
    have hgroup : ¬ registers.isEmpty = true := by simpa [isGroup] using h
    rw [instances, if_neg hgroup]
    simp only [turns, h, List.flatMap_map]
    refine List.flatMap_congr fun i _ => ?_
    rw [instanceOffset_clamp64, Nat.add_assoc]
    rfl

end

mutual

theorem instances_eq (around : Surroundings) (base : Nat) :
    ∀ r : RegisterDecl, instances around (clamp64 (base + r.offset.toNat)) r =
      r.occurrences.map fun o => o.unrolled around base
  | ⟨name, offset, access, description, fields, count, stride, registers⟩ => by
    generalize hr : RegisterDecl.mk name offset access description fields count stride registers = r
    cases hgroup : r.isGroup with
    | false =>
      rw [instances_leaf around base hgroup, occurrences_leaf hgroup, List.map_map]
      rfl
    | true =>
      rw [instances_group around base hgroup, occurrences_group hgroup, List.map_flatMap]
      refine List.flatMap_congr fun t _ => ?_
      -- The recursion needs to see that these are the registers of the declaration.
      have hregs : r.registers = registers := by rw [← hr]
      rw [hregs, instancesAll_eq, List.map_map]
      refine List.map_congr_left fun o _ => ?_
      exact (Occurrence.unrolled_within around base t o).symm

theorem instancesAll_eq (around : Surroundings) (base : Nat) :
    ∀ rs : List RegisterDecl, instancesAll around (clamp64 base) rs =
      (occurrencesAll rs).map fun o => o.unrolled around base
  | [] => by
    rw [instancesAll, occurrencesAll, List.map_nil]
  | r :: rs => by
    rw [instancesAll, occurrencesAll, List.map_append, addSat_clamp64, instances_eq around base r,
      instancesAll_eq around base rs]

end

end RegisterDecl

theorem AddressBlock.width_register (b : AddressBlock) (o : Occurrence) : (b.register o).width = b.registerWidth := rfl

theorem AddressBlock.unroll_eq (b : AddressBlock) : b.unroll = (RegisterDecl.occurrencesAll b.registers).map b.register := by
  have h := RegisterDecl.instancesAll_eq { stem := "", access := none, block := b.name, width := b.registerWidth }
    b.baseAddress.toNat b.registers
  rw [clamp64_toNat] at h
  rw [unroll, h]
  refine List.map_congr_left fun o _ => ?_
  have haccess : (o.access <|> none) = o.access := by cases o.access <;> rfl
  simp only [Occurrence.unrolled, register, registerWidth, haccess, String.empty_append]

namespace MemoryMap

theorem unrollAll_eq (maps : List MemoryMap) : unrollAll maps = enumeration maps := by
  simp only [unrollAll, enumeration, funext AddressBlock.unroll_eq]

/-- The flat registers are those of all occurrences of leaves, by address, those at one
address in order of declaration. -/
theorem flatten_sortedBy (maps : List MemoryMap) : SortedBy (·.offset) (enumeration maps) (flatten maps) := by
  rw [← unrollAll_eq]
  exact sortedBy_mergeSort _ _

end MemoryMap

end CoreForge
