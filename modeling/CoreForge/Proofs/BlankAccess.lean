import CoreForge.Proofs.Characters
import CoreForge.Proofs.Unrolling
/-!
# Blank accesses

An access of white space alone reads as the default access. It is still an access, though, and
hides the one around it: a register does not look past a blank access for that of its groups,
nor a field for that of its register. So taking the blank accesses out of some memory maps
changes their registers exactly where one of them hides an access other than the default:
`MemoryMap.flatten_withoutBlanks_iff`.
-/

namespace CoreForge

open CoreForge.Number CoreForge.Text

/-- An access that is empty or only white space. -/
def isBlankAccess (access : String) : Bool := access.toList.all isSpace

/-- An access, unless it is blank. -/
def unlessBlank (access : Option String) : Option String := access.filter fun a => !isBlankAccess a

/-! ## Declarations without blank accesses -/

def FieldDecl.withoutBlanks (f : FieldDecl) : FieldDecl := { f with access := unlessBlank f.access }

namespace RegisterDecl

mutual

/-- A declaration without the blank accesses in it, those of fields included. -/
def withoutBlanks : RegisterDecl → RegisterDecl
  | ⟨name, offset, access, description, fields, count, stride, registers⟩ =>
    ⟨name, offset, unlessBlank access, description, fields.map FieldDecl.withoutBlanks, count, stride,
      withoutBlanksAll registers⟩

/-- Some declarations without the blank accesses in them. -/
def withoutBlanksAll : List RegisterDecl → List RegisterDecl
  | [] => []
  | r :: rs => withoutBlanks r :: withoutBlanksAll rs

end

end RegisterDecl

def AddressBlock.withoutBlanks (b : AddressBlock) : AddressBlock :=
  { b with registers := RegisterDecl.withoutBlanksAll b.registers }

def MemoryMap.withoutBlanks (m : MemoryMap) : MemoryMap :=
  { m with addressBlocks := m.addressBlocks.map AddressBlock.withoutBlanks }

def Turn.withoutBlanks (t : Turn) : Turn := { t with decl := t.decl.withoutBlanks }

namespace Occurrence

def withoutBlanks (o : Occurrence) : Occurrence := ⟨o.groups.map Turn.withoutBlanks, o.leaf.withoutBlanks⟩

/-- The nearest access that is not blank, that of the leaf first. -/
def accessPastBlanks (o : Occurrence) : Option String :=
  (o.leaf :: o.groups.reverse).findSome? fun t => unlessBlank t.decl.access

/-- A blank access decides about the register or about one of its fields. -/
def BlankDecides (o : Occurrence) : Prop :=
  (∃ a ∈ o.access, isBlankAccess a = true) ∨ ∃ f ∈ o.leaf.decl.fields, ∃ a ∈ f.access, isBlankAccess a = true

end Occurrence

/-! ## What a blank access means -/

section Accesses
variable {a : String}

theorem trim_eq_nil_of_isBlankAccess (h : isBlankAccess a = true) : trim a.toList = [] := by
  have hspaces : ∀ c ∈ a.toList, isSpace c = true := List.all_eq_true.1 h
  rw [trim_eq, List.dropWhile_eq_nil_iff.2 hspaces]
  rfl

theorem normalizeAccess_blank (h : isBlankAccess a = true) : normalizeAccess (some a) = defaultAccess := by
  unfold normalizeAccess
  rw [Option.getD_some, trim_eq_nil_of_isBlankAccess h]
  rfl

theorem unlessBlank_blank (h : isBlankAccess a = true) : unlessBlank (some a) = none := by
  rw [unlessBlank, Option.filter_some, h]
  rfl

theorem unlessBlank_of_not_blank (h : ¬ isBlankAccess a = true) : unlessBlank (some a) = some a := by
  rw [unlessBlank, Option.filter_some, Bool.eq_false_iff.2 h]
  rfl

/-- What comes first is also what comes first among all that is not blank, unless it is blank. -/
theorem findSome?_unlessBlank {α : Type} {get : α → Option String} {l : List α}
    (h : ∀ a ∈ l.findSome? get, ¬ isBlankAccess a = true) :
    (l.findSome? fun x => unlessBlank (get x)) = l.findSome? get := by
  induction l with
  | nil => rfl
  | cons x l ih =>
    rw [List.findSome?_cons] at h ⊢
    rw [List.findSome?_cons]
    cases hx : get x with
    | none =>
      rw [hx] at h
      exact ih h
    | some a =>
      rw [hx] at h
      rw [unlessBlank_of_not_blank (h a rfl)]

end Accesses

/-! ## Fields -/

/-- A field notices that its blank access is gone unless its register has the default access. -/
theorem FieldDecl.flatField_withoutBlanks_iff (access : String) (f : FieldDecl) :
    f.withoutBlanks.flatten access = f.flatten access ↔
      ((∃ a ∈ f.access, isBlankAccess a = true) → access = defaultAccess) := by
  have haccess : f.withoutBlanks.flatten access = f.flatten access ↔
      (unlessBlank f.access).elim access (fun a => normalizeAccess (some a)) =
        f.access.elim access fun a => normalizeAccess (some a) := by
    rw [flatten, flatten, FlatField.mk.injEq]
    simp [withoutBlanks, span]
  rw [haccess]
  cases f.access with
  | none => simp [unlessBlank]
  | some a =>
    by_cases hblank : isBlankAccess a = true
    · rw [unlessBlank_blank hblank, Option.elim_none, Option.elim_some, normalizeAccess_blank hblank]
      simp [hblank]
    · rw [unlessBlank_of_not_blank hblank]
      simp [hblank]

/-! ## Occurrences -/

namespace RegisterDecl

theorem isEmpty_withoutBlanksAll (rs : List RegisterDecl) : (withoutBlanksAll rs).isEmpty = rs.isEmpty := by
  cases rs with
  | nil => rw [withoutBlanksAll]
  | cons r rs => rw [withoutBlanksAll, List.isEmpty_cons, List.isEmpty_cons]

theorem turns_withoutBlanks (r : RegisterDecl) : r.withoutBlanks.turns = r.turns.map Turn.withoutBlanks := by
  cases r with
  | mk name offset access description fields count stride registers =>
    simp only [turns, withoutBlanks, isGroup, isEmpty_withoutBlanksAll, List.map_map]
    rfl

mutual

theorem occurrences_withoutBlanks :
    ∀ r : RegisterDecl, r.withoutBlanks.occurrences = r.occurrences.map Occurrence.withoutBlanks
  | ⟨name, offset, access, description, fields, count, stride, registers⟩ => by
    have hturns := turns_withoutBlanks ⟨name, offset, access, description, fields, count, stride, registers⟩
    have hall := occurrencesAll_withoutBlanks registers
    rw [withoutBlanks] at hturns ⊢
    rw [occurrences, occurrences, isEmpty_withoutBlanksAll, hturns, hall]
    split
    · rw [List.map_map, List.map_map]
      rfl
    · rw [List.flatMap_map, List.map_flatMap]
      refine List.flatMap_congr fun t _ => ?_
      rw [List.map_map, List.map_map]
      rfl

theorem occurrencesAll_withoutBlanks : ∀ rs : List RegisterDecl,
    occurrencesAll (withoutBlanksAll rs) = (occurrencesAll rs).map Occurrence.withoutBlanks
  | [] => by
    rw [withoutBlanksAll, occurrencesAll, List.map_nil]
  | r :: rs => by
    rw [withoutBlanksAll, occurrencesAll, occurrencesAll, occurrences_withoutBlanks r,
      occurrencesAll_withoutBlanks rs, List.map_append]

end

theorem fields_withoutBlanks (r : RegisterDecl) : r.withoutBlanks.fields = r.fields.map FieldDecl.withoutBlanks := by
  cases r
  rw [withoutBlanks]

theorem access_withoutBlanks (r : RegisterDecl) : r.withoutBlanks.access = unlessBlank r.access := by
  cases r
  rw [withoutBlanks]

theorem description_withoutBlanks (r : RegisterDecl) : r.withoutBlanks.description = r.description := by
  cases r
  rw [withoutBlanks]

end RegisterDecl

theorem Turn.label_withoutBlanks (t : Turn) : t.withoutBlanks.label = t.label := by
  cases t with
  | mk decl index =>
    cases decl
    rfl

theorem Turn.distance_withoutBlanks (t : Turn) : t.withoutBlanks.distance = t.distance := by
  cases t with
  | mk decl index =>
    cases decl
    rfl

namespace Occurrence

theorem access_withoutBlanks (o : Occurrence) : o.withoutBlanks.access = o.accessPastBlanks := by
  have hturns : o.withoutBlanks.leaf :: o.withoutBlanks.groups.reverse =
      (o.leaf :: o.groups.reverse).map Turn.withoutBlanks := by
    rw [List.map_cons, List.map_reverse]
    rfl
  rw [access, accessPastBlanks, hturns, List.findSome?_map]
  simp only [Function.comp_def, Turn.withoutBlanks, RegisterDecl.access_withoutBlanks]

theorem name_withoutBlanks (o : Occurrence) : o.withoutBlanks.name = o.name := by
  simp only [name, withoutBlanks, List.map_map, Function.comp_def, Turn.label_withoutBlanks]

theorem distance_withoutBlanks (o : Occurrence) : o.withoutBlanks.distance = o.distance := by
  simp only [distance, withoutBlanks, List.foldr_map, Turn.distance_withoutBlanks]

/-- A register notices that a blank access is gone unless what it hides is the default access. -/
theorem normalizeAccess_pastBlanks_iff (o : Occurrence) :
    normalizeAccess o.accessPastBlanks = normalizeAccess o.access ↔
      ((∃ a ∈ o.access, isBlankAccess a = true) → normalizeAccess o.accessPastBlanks = defaultAccess) := by
  by_cases hblank : ∃ a ∈ o.access, isBlankAccess a = true
  · obtain ⟨a, ha, hspaces⟩ := hblank
    rw [Option.mem_def] at ha
    rw [ha, normalizeAccess_blank hspaces]
    simp [hspaces]
  · have hsame : o.accessPastBlanks = o.access := by
      apply findSome?_unlessBlank
      intro a ha hspaces
      exact hblank ⟨a, ha, hspaces⟩
    rw [hsame]
    exact ⟨fun _ h => absurd h hblank, fun _ => rfl⟩

/-- Only the accesses of a register depend on blank accesses. -/
theorem register_withoutBlanks (b : AddressBlock) (o : Occurrence) : b.withoutBlanks.register o.withoutBlanks =
    { b.register o with
      access := normalizeAccess o.accessPastBlanks
      fields := o.leaf.decl.fields.map fun f => f.withoutBlanks.flatten (normalizeAccess o.accessPastBlanks) } := by
  have hdescription : o.withoutBlanks.leaf.decl.description = o.leaf.decl.description :=
    RegisterDecl.description_withoutBlanks _
  have hfields : o.withoutBlanks.leaf.decl.fields = o.leaf.decl.fields.map FieldDecl.withoutBlanks :=
    RegisterDecl.fields_withoutBlanks _
  rw [AddressBlock.register, AddressBlock.register, name_withoutBlanks, distance_withoutBlanks, access_withoutBlanks,
    hdescription, hfields, List.map_map]
  rfl

/-- What a register notices of blank accesses that are gone. -/
theorem register_withoutBlanks_iff (b : AddressBlock) (o : Occurrence) :
    b.withoutBlanks.register o.withoutBlanks = b.register o ↔
      (o.BlankDecides → normalizeAccess o.accessPastBlanks = defaultAccess) := by
  have hregister : b.withoutBlanks.register o.withoutBlanks = b.register o ↔
      normalizeAccess o.accessPastBlanks = normalizeAccess o.access ∧
        ∀ f ∈ o.leaf.decl.fields, f.withoutBlanks.flatten (normalizeAccess o.accessPastBlanks) =
          f.flatten (normalizeAccess o.access) := by
    rw [register_withoutBlanks, AddressBlock.register, FlatRegister.mk.injEq, List.map_inj_left]
    simp only [true_and]
  rw [hregister]
  constructor
  · rintro ⟨hsame, hfields⟩ (hregister | ⟨f, hf, hblank⟩)
    · exact (normalizeAccess_pastBlanks_iff o).1 hsame hregister
    · have hfield := hfields f hf
      rw [← hsame] at hfield
      exact (FieldDecl.flatField_withoutBlanks_iff _ f).1 hfield hblank
  · intro h
    have hsame := (normalizeAccess_pastBlanks_iff o).2 fun hblank => h (.inl hblank)
    refine ⟨hsame, ?_⟩
    intro f hf
    rw [← hsame, FieldDecl.flatField_withoutBlanks_iff]
    intro hblank
    exact h (.inr ⟨f, hf, hblank⟩)

end Occurrence

/-! ## Memory maps -/

namespace MemoryMap

/-- All occurrences, in order of declaration, with the blocks that they are in. -/
def sites (maps : List MemoryMap) : List (AddressBlock × Occurrence) :=
  maps.flatMap fun m => m.addressBlocks.flatMap fun b => (RegisterDecl.occurrencesAll b.registers).map (b, ·)

theorem mem_sites {maps : List MemoryMap} {b : AddressBlock} {o : Occurrence} :
    (b, o) ∈ sites maps ↔ ∃ m ∈ maps, b ∈ m.addressBlocks ∧ o ∈ RegisterDecl.occurrencesAll b.registers := by
  simp [sites]

theorem enumeration_eq (maps : List MemoryMap) : enumeration maps = (sites maps).map fun s => s.1.register s.2 := by
  simp only [enumeration, sites, List.map_flatMap, List.map_map]
  rfl

theorem enumeration_withoutBlanks (maps : List MemoryMap) : enumeration (maps.map withoutBlanks) =
    (sites maps).map fun s => s.1.withoutBlanks.register s.2.withoutBlanks := by
  simp only [enumeration, sites, List.map_flatMap, List.flatMap_map, List.map_map, withoutBlanks,
    AddressBlock.withoutBlanks, RegisterDecl.occurrencesAll_withoutBlanks]
  rfl

/-- Taking out the blank accesses changes nothing exactly if none of them hides an access other
than the default, from its register or from one of its fields. -/
theorem flatten_withoutBlanks_iff (maps : List MemoryMap) : flatten (maps.map withoutBlanks) = flatten maps ↔
    ∀ m ∈ maps, ∀ b ∈ m.addressBlocks, ∀ o ∈ RegisterDecl.occurrencesAll b.registers,
      o.BlankDecides → normalizeAccess o.accessPastBlanks = defaultAccess := by
  rw [flatten, flatten, unrollAll_eq, unrollAll_eq, enumeration_withoutBlanks, enumeration_eq]
  rw [mergeSort_map_eq_iff FlatRegister.offset]
  · simp only [Occurrence.register_withoutBlanks_iff, Prod.forall, mem_sites]
    constructor
    · intro h m hm b hb o ho
      exact h b o ⟨m, hm, hb, ho⟩
    · rintro h b o ⟨m, hm, hb, ho⟩
      exact h m hm b hb o ho
  · rintro ⟨b, o⟩ -
    change clamp64 (b.baseAddress.toNat + o.withoutBlanks.distance) = clamp64 (b.baseAddress.toNat + o.distance)
    rw [Occurrence.distance_withoutBlanks]

/-- In a read-only group a register with a blank access can be written, and one without an
access cannot. -/
theorem flatten_withoutBlanks_group :
    let a : RegisterDecl := { RegisterDecl.ofOffset "a" 0 with access := some " " }
    let g : RegisterDecl := { RegisterDecl.ofOffset "g" 0 with access := some "read-only", registers := [a] }
    let maps : List MemoryMap := [⟨"m", "", [{ AddressBlock.ofAddress "b" 0 with registers := [g] }]⟩]
    (flatten maps).map (·.isWritable) = [true] ∧ (flatten (maps.map withoutBlanks)).map (·.isWritable) = [false] ∧
      flatten (maps.map withoutBlanks) ≠ flatten maps := by
  intro a g maps
  let register (access : String) : FlatRegister := ⟨"g_a", 0, 32, "b", access, "", []⟩
  have hblank : unrollAll maps = [register "read-write"] := by decide
  have hgone : unrollAll (maps.map withoutBlanks) = [register "read-only"] := by decide
  rw [flatten, flatten, hblank, hgone, List.mergeSort_singleton, List.mergeSort_singleton]
  decide

end MemoryMap

end CoreForge
