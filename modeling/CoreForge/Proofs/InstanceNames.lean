import CoreForge.Proofs.BitNotation
import CoreForge.Proofs.Repetitions
/-!
# The names of repetitions

The name of a register is put together from those of the groups around it and its own, with an
index behind each name that is repeated. The declared names may themselves end in digits and
underscores, but for registers of the same leaf they are the same, so what differs are the
indices, and an index ends where its digits end: `RegisterDecl.instances_names`.
-/

namespace CoreForge

open CoreForge.Number

/-! ## An index is read back from a label -/

namespace Turn
variable {t u : Turn} {rest rest' : List Char}

/-- The repetition exists. -/
def Exists (t : Turn) : Prop := t.index < t.decl.repetitions

/-- A declaration that is not repeated has one repetition at most. -/
theorem Exists.index_eq_zero (h : t.Exists) (hsingle : ¬ 1 < (t.decl.count.getD 1).toNat) : t.index = 0 := by
  unfold Exists RegisterDecl.repetitions at h
  split at h <;> omega

/-- Two repetitions of a declaration with the same label are the same, whatever follows the
label, as long as it does not go on with a digit. -/
theorem label_append_inj (ht : t.Exists) (hu : u.Exists) (hdecl : t.decl = u.decl) (hrest : Closes rest)
    (hrest' : Closes rest') (h : t.label.toList ++ rest = u.label.toList ++ rest') : t = u ∧ rest = rest' := by
  have hsame : t.index = u.index → t = u := by
    intro hindex
    cases t
    cases u
    rw [Turn.mk.injEq]
    exact ⟨hdecl, hindex⟩
  unfold label at h
  rw [← hdecl] at h
  split at h
  · simp only [String.toList_append, List.append_assoc, Nat.toString_eq_ofList_toDigits, String.toList_ofList] at h
    have hdigits := List.append_cancel_left (List.append_cancel_left h)
    obtain ⟨hindex, hbehind⟩ := toDigits_append_inj hrest hrest' hdigits
    exact ⟨hsame hindex, hbehind⟩
  · rename_i hsingle
    refine ⟨hsame ?_, List.append_cancel_left h⟩
    rw [ht.index_eq_zero hsingle, hu.index_eq_zero (hdecl ▸ hsingle)]

end Turn

namespace Occurrence

/-- The declarations from the outermost group down to the leaf. -/
def chain (o : Occurrence) : List RegisterDecl := o.turns.map Turn.decl

/-- The index of each repetition from the outermost group down to the leaf. -/
def indices (o : Occurrence) : List Nat := o.turns.map Turn.index

theorem toList_name_cons (t : Turn) (groups : List Turn) (leaf : Turn) :
    (mk (t :: groups) leaf).name.toList = t.label.toList ++ '_' :: (mk groups leaf).name.toList := by
  change ((mk groups leaf).within t).name.toList = _
  rw [name_within]
  simp

/-- The name tells the repetitions of one leaf apart. -/
theorem eq_of_name {o o' : Occurrence} (ho : ∀ t ∈ o.turns, t.Exists) (ho' : ∀ t ∈ o'.turns, t.Exists)
    (hchain : o.chain = o'.chain) (hname : o.name = o'.name) : o = o' := by
  obtain ⟨groups, leaf⟩ := o
  obtain ⟨groups', leaf'⟩ := o'
  have hunderscore : ∀ cs, Closes ('_' :: cs) := fun cs => closes_cons (by decide) (by decide)
  induction groups generalizing groups' with
  | nil =>
    cases groups' with
    | nil =>
      have hdecl : leaf.decl = leaf'.decl := List.singleton_inj.1 hchain
      have hlabel : leaf.label.toList ++ [] = leaf'.label.toList ++ [] := congrArg (String.toList · ++ []) hname
      have hleaf := (Turn.label_append_inj (ho leaf (List.mem_singleton_self _)) (ho' leaf' (List.mem_singleton_self _))
        hdecl closes_nil closes_nil hlabel).1
      rw [hleaf]
    | cons t' groups' => simp [chain, turns] at hchain
  | cons t groups ih =>
    cases groups' with
    | nil => simp [chain, turns] at hchain
    | cons t' groups' =>
      obtain ⟨hdecl, hinner⟩ := List.cons_eq_cons.1 hchain
      have hnames := congrArg String.toList hname
      rw [toList_name_cons, toList_name_cons] at hnames
      obtain ⟨rfl, hrest⟩ := Turn.label_append_inj (ho t List.mem_cons_self) (ho' t' List.mem_cons_self) hdecl
        (hunderscore _) (hunderscore _) hnames
      have hsame := ih (fun u hu => ho u (List.mem_cons_of_mem _ hu)) groups'
        (fun u hu => ho' u (List.mem_cons_of_mem _ hu)) hinner (String.toList_inj.1 (List.cons_eq_cons.1 hrest).2)
      rw [Occurrence.mk.injEq] at hsame
      rw [hsame.1, hsame.2]

end Occurrence

namespace RegisterDecl

/-- Every turn of a descent exists. -/
theorem Descent.forall_exists {rs : List RegisterDecl} {ts : List Turn} (h : Descent rs ts) : ∀ t ∈ ts, t.Exists := by
  induction h with
  | leaf _ hindex _ =>
    intro u hu
    rw [List.mem_singleton.1 hu]
    exact hindex
  | group _ hindex _ _ ih =>
    intro u hu
    rcases List.mem_cons.1 hu with rfl | hu
    · exact hindex
    · exact ih u hu

theorem mem_occurrences_iff {r : RegisterDecl} {o : Occurrence} : o ∈ r.occurrences ↔ Descent [r] o.turns := by
  rw [← mem_occurrencesAll_iff, occurrencesAll_eq, List.flatMap_singleton]

end RegisterDecl

/-! ## The registers of a declaration at an address -/

namespace Occurrence

/-- The register that an occurrence in a declaration stands for when that is placed at an address. -/
def placed (around : Surroundings) (address : UInt64) (r : RegisterDecl) (o : Occurrence) : FlatRegister :=
  { o.unrolled around 0 with offset := clamp64 (address.toNat + (o.distance - r.offset.toNat)) }

/-- An occurrence that moves with its declaration stands for the same register at another address. -/
theorem unrolled_eq_placed {around : Surroundings} {address : UInt64} {r : RegisterDecl} {o moved : Occurrence}
    (hname : moved.name = o.name) (haccess : moved.access = o.access)
    (hdescription : moved.leaf.decl.description = o.leaf.decl.description)
    (hfields : moved.leaf.decl.fields = o.leaf.decl.fields) (hdistance : r.offset.toNat + moved.distance = o.distance) :
    moved.unrolled around address.toNat = o.placed around address r := by
  have hmoved : o.distance - r.offset.toNat = moved.distance := by omega
  unfold placed unrolled
  rw [hname, haccess, hdescription, hfields, hmoved]

end Occurrence

namespace RegisterDecl

theorem instances_eq_placed (around : Surroundings) (address : UInt64) (r : RegisterDecl) :
    r.instances around address = r.occurrences.map (Occurrence.placed around address r) := by
  have hdistance : ∀ i, r.offset.toNat + Turn.distance ⟨{ r with offset := 0 }, i⟩ = Turn.distance ⟨r, i⟩ := by
    intro i
    rw [Turn.distance_mk, Turn.distance_mk, UInt64.toNat_zero, Nat.zero_add]
  rw [instances_eq_map]
  cases hgroup : r.isGroup with
  | false =>
    have hleaf : isGroup { r with offset := 0 } = false := hgroup
    rw [occurrences_leaf hgroup, occurrences_leaf hleaf]
    simp only [turns, hgroup, hleaf, List.map_map]
    refine List.map_congr_left fun i _ => ?_
    exact Occurrence.unrolled_eq_placed rfl rfl rfl rfl (hdistance i)
  | true =>
    have hgroup' : isGroup { r with offset := 0 } = true := hgroup
    rw [occurrences_group hgroup, occurrences_group hgroup']
    simp only [turns, hgroup, hgroup', List.map_flatMap, List.flatMap_map, List.map_map]
    refine List.flatMap_congr fun i _ => List.map_congr_left fun o _ => ?_
    apply Occurrence.unrolled_eq_placed
    · rw [Occurrence.name_within, Occurrence.name_within]
      rfl
    · rw [Occurrence.access_within, Occurrence.access_within]
    · rfl
    · rfl
    · rw [Occurrence.distance_within, Occurrence.distance_within, ← Nat.add_assoc, hdistance]

/-- A declaration at an address stands for one register for each of its occurrences, and those
of one leaf in one chain of groups that differ in an index differ in their names. -/
theorem instances_names (around : Surroundings) (address : UInt64) (r : RegisterDecl) :
    r.instances around address = r.occurrences.map (Occurrence.placed around address r) ∧
      ∀ o ∈ r.occurrences, ∀ o' ∈ r.occurrences, o.chain = o'.chain → o.indices ≠ o'.indices →
        (o.placed around address r).name ≠ (o'.placed around address r).name := by
  refine ⟨instances_eq_placed around address r, ?_⟩
  intro o ho o' ho' hchain hindices hname
  apply hindices
  -- The names around the declaration are the same for both.
  have hown : o.name = o'.name := (String.append_right_inj _).1 hname
  have hexists := (mem_occurrences_iff.1 ho).forall_exists
  have hexists' := (mem_occurrences_iff.1 ho').forall_exists
  rw [Occurrence.eq_of_name hexists hexists' hchain hown]

/-- Groups and registers that have numbers in their names. -/
theorem instances_names_numbered :
    let leaf : RegisterDecl := { ofOffset "1" 0 with count := some 2, stride := some 4 }
    let group : RegisterDecl := { ofOffset "ch_1" 8 with count := some 12, stride := some 8, registers := [leaf] }
    let around : Surroundings := { stem := "", access := none, block := "block", width := 32 }
    let o : Occurrence := ⟨[⟨group, 1⟩], ⟨leaf, 1⟩⟩
    let o' : Occurrence := ⟨[⟨group, 11⟩], ⟨leaf, 0⟩⟩
    o ∈ group.occurrences ∧ o' ∈ group.occurrences ∧ o.indices = [1, 1] ∧ o'.indices = [11, 0] ∧
      o.placed around 0x100 group ∈ group.instances around 0x100 ∧
      (o.placed around 0x100 group).name = "ch_1_1_1_1" ∧
      (o.placed around 0x100 group).name ≠ (o'.placed around 0x100 group).name := by
  intro leaf group around o o'
  have hdescent : ∀ i j, i < 12 → j < 2 → Descent [group] [⟨group, i⟩, ⟨leaf, j⟩] := by
    intro i j hi hj
    exact .group (List.mem_singleton_self _) hi rfl (.leaf (List.mem_singleton_self _) hj rfl)
  have ho : o ∈ group.occurrences := mem_occurrences_iff.2 (hdescent 1 1 (by decide) (by decide))
  have ho' : o' ∈ group.occurrences := mem_occurrences_iff.2 (hdescent 11 0 (by decide) (by decide))
  obtain ⟨hinstances, hnames⟩ := instances_names around 0x100 group
  refine ⟨ho, ho', rfl, rfl, ?_, by decide, hnames o ho o' ho' rfl (by decide)⟩
  rw [hinstances]
  exact List.mem_map_of_mem ho

end RegisterDecl

end CoreForge
