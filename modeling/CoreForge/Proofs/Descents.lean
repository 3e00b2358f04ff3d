import CoreForge.Proofs.Unrolling
/-!
# Descents to a register

A register is found by going down from the declarations of a block: a turn of one of them,
a turn of one inside that, and so on to a leaf. `Descent` says which turns do so, and
`mem_occurrencesAll_iff` that the occurrences are these. What holds of all registers then
follows by induction on the turns, and not on the tree.
-/

namespace CoreForge

namespace Turn

theorem distance_mk (r : RegisterDecl) (index : Nat) :
    distance ⟨r, index⟩ = r.offset.toNat + index * (r.stride.getD 0).toNat := rfl

/-- The bytes from the start of what is around some turns to the last one. -/
def distanceAll (ts : List Turn) : Nat := ts.foldr (fun t bytes => t.distance + bytes) 0

theorem distanceAll_cons (t : Turn) (ts : List Turn) : distanceAll (t :: ts) = t.distance + distanceAll ts := rfl

theorem distanceAll_append (ts us : List Turn) : distanceAll (ts ++ us) = distanceAll ts + distanceAll us := by
  induction ts with
  | nil => exact (Nat.zero_add _).symm
  | cons t ts ih => rw [List.cons_append, distanceAll_cons, distanceAll_cons, ih, Nat.add_assoc]

end Turn

namespace Occurrence

/-- The turns from the outermost group down to the leaf. -/
def turns (o : Occurrence) : List Turn := o.groups ++ [o.leaf]

theorem eq_of_turns {o o' : Occurrence} (h : o.turns = o'.turns) : o = o' := by
  cases o
  cases o'
  obtain ⟨hgroups, hleaf⟩ := List.append_inj' h rfl
  rw [Occurrence.mk.injEq]
  exact ⟨hgroups, List.singleton_inj.1 hleaf⟩

theorem distance_eq (o : Occurrence) : o.distance = Turn.distanceAll o.turns := by
  cases o with
  | mk groups leaf =>
    induction groups with
    | nil => rfl
    | cons t groups ih => exact congrArg (t.distance + ·) ih

end Occurrence

namespace RegisterDecl

/-- How often a declaration is there. A leaf is there at least once. -/
def repetitions (r : RegisterDecl) : Nat :=
  if r.isGroup then (r.count.getD 1).toNat else max (r.count.getD 1).toNat 1

theorem mem_turns {r : RegisterDecl} {t : Turn} : t ∈ r.turns ↔ t.decl = r ∧ t.index < r.repetitions := by
  simp only [turns, List.mem_map, List.mem_range]
  constructor
  · rintro ⟨i, hi, rfl⟩
    exact ⟨rfl, hi⟩
  · rintro ⟨rfl, hi⟩
    exact ⟨t.index, hi, rfl⟩

theorem occurrencesAll_eq (rs : List RegisterDecl) : occurrencesAll rs = rs.flatMap occurrences := by
  induction rs with
  | nil => rw [occurrencesAll, List.flatMap_nil]
  | cons r rs ih => rw [occurrencesAll, List.flatMap_cons, ih]

/-- Turns that lead from some declarations to a leaf, each inside the one before it. -/
inductive Descent : List RegisterDecl → List Turn → Prop
  | leaf {rs t} : t.decl ∈ rs → t.index < t.decl.repetitions → t.decl.isGroup = false → Descent rs [t]
  | group {rs t ts} : t.decl ∈ rs → t.index < t.decl.repetitions → t.decl.isGroup = true →
      Descent t.decl.registers ts → Descent rs (t :: ts)

namespace Descent
variable {rs rs' : List RegisterDecl} {t : Turn} {ts outer inner : List Turn}

theorem mono (h : Descent rs ts) (hsub : rs ⊆ rs') : Descent rs' ts := by
  cases h with
  | leaf hmem hindex hleaf => exact .leaf (hsub hmem) hindex hleaf
  | group hmem hindex hgroup hinner => exact .group (hsub hmem) hindex hgroup hinner

theorem cons_iff : Descent rs (t :: ts) ↔ t.decl ∈ rs ∧ t.index < t.decl.repetitions ∧
    (t.decl.isGroup = false ∧ ts = [] ∨ t.decl.isGroup = true ∧ Descent t.decl.registers ts) := by
  constructor
  · intro h
    cases h with
    | leaf hmem hindex hleaf => exact ⟨hmem, hindex, .inl ⟨hleaf, rfl⟩⟩
    | group hmem hindex hgroup hinner => exact ⟨hmem, hindex, .inr ⟨hgroup, hinner⟩⟩
  · rintro ⟨hmem, hindex, ⟨hleaf, rfl⟩ | ⟨hgroup, hinner⟩⟩
    · exact .leaf hmem hindex hleaf
    · exact .group hmem hindex hgroup hinner

/-- Below a turn that is not the last one the descent goes on inside of it. -/
theorem inside (h : Descent rs (t :: ts)) (hts : ts ≠ []) : Descent t.decl.registers ts := by
  obtain ⟨-, -, ⟨-, hnil⟩ | ⟨-, hinner⟩⟩ := cons_iff.1 h
  · exact absurd hnil hts
  · exact hinner

/-- The end of a descent is one from somewhere further down. -/
theorem suffix (h : Descent rs (outer ++ t :: inner)) : ∃ rs', Descent rs' (t :: inner) := by
  induction outer generalizing rs with
  | nil => exact ⟨rs, h⟩
  | cons u outer ih => exact ih (h.inside (by simp))

/-- Another repetition on the way leads to the same leaf. -/
theorem at_index (h : Descent rs (outer ++ t :: inner)) {i : Nat} (hi : i < t.decl.repetitions) :
    Descent rs (outer ++ ⟨t.decl, i⟩ :: inner) := by
  induction outer generalizing rs with
  | nil =>
    obtain ⟨hmem, -, hrest⟩ := cons_iff.1 h
    exact cons_iff.2 ⟨hmem, hi, hrest⟩
  | cons u outer ih =>
    have hinner := ih (h.inside (by simp))
    obtain ⟨hmem, hindex, ⟨-, hnil⟩ | ⟨hgroup, -⟩⟩ := cons_iff.1 h
    · simp at hnil
    · exact .group hmem hindex hgroup hinner

theorem exists_occurrence (h : Descent rs ts) : ∃ o ∈ occurrencesAll rs, o.turns = ts := by
  induction h with
  | @leaf rs t hmem hindex hleaf =>
    refine ⟨⟨[], t⟩, ?_, rfl⟩
    rw [occurrencesAll_eq, List.mem_flatMap]
    refine ⟨t.decl, hmem, ?_⟩
    rw [occurrences_leaf hleaf]
    exact List.mem_map_of_mem (mem_turns.2 ⟨rfl, hindex⟩)
  | @group rs t ts hmem hindex hgroup _ ih =>
    obtain ⟨o, ho, rfl⟩ := ih
    refine ⟨o.within t, ?_, rfl⟩
    rw [occurrencesAll_eq, List.mem_flatMap]
    refine ⟨t.decl, hmem, ?_⟩
    rw [occurrences_group hgroup, List.mem_flatMap]
    exact ⟨t, mem_turns.2 ⟨rfl, hindex⟩, List.mem_map_of_mem ho⟩

end Descent

mutual

theorem descent_of_mem_occurrences : ∀ r : RegisterDecl, ∀ o ∈ r.occurrences, Descent [r] o.turns
  | ⟨name, offset, access, description, fields, count, stride, registers⟩ => by
    intro o ho
    generalize hr : RegisterDecl.mk name offset access description fields count stride registers = r at ho ⊢
    cases hgroup : r.isGroup with
    | false =>
      rw [occurrences_leaf hgroup, List.mem_map] at ho
      obtain ⟨t, ht, rfl⟩ := ho
      obtain ⟨rfl, hindex⟩ := mem_turns.1 ht
      exact .leaf (List.mem_singleton_self _) hindex hgroup
    | true =>
      rw [occurrences_group hgroup, List.mem_flatMap] at ho
      obtain ⟨t, ht, ho⟩ := ho
      obtain ⟨inner, hinner, rfl⟩ := List.mem_map.1 ho
      obtain ⟨rfl, hindex⟩ := mem_turns.1 ht
      have hregs : t.decl.registers = registers := by rw [← hr]
      refine .group (List.mem_singleton_self _) hindex hgroup ?_
      rw [hregs] at hinner ⊢
      exact descent_of_mem_occurrencesAll registers inner hinner

theorem descent_of_mem_occurrencesAll : ∀ rs : List RegisterDecl, ∀ o ∈ occurrencesAll rs, Descent rs o.turns
  | [] => by
    intro o ho
    rw [occurrencesAll] at ho
    cases ho
  | r :: rs => by
    intro o ho
    rw [occurrencesAll] at ho
    rcases List.mem_append.1 ho with ho | ho
    · exact (descent_of_mem_occurrences r o ho).mono (by simp)
    · exact (descent_of_mem_occurrencesAll rs o ho).mono (by simp)

end

/-- The occurrences in some declarations are the descents. -/
theorem mem_occurrencesAll_iff {rs : List RegisterDecl} {o : Occurrence} :
    o ∈ occurrencesAll rs ↔ Descent rs o.turns := by
  refine ⟨descent_of_mem_occurrencesAll rs o, fun h => ?_⟩
  obtain ⟨o', ho', hturns⟩ := h.exists_occurrence
  rw [← Occurrence.eq_of_turns hturns]
  exact ho'

end RegisterDecl

end CoreForge
