import CoreForge.Proofs.BitNotation
import CoreForge.Proofs.Expansion
import CoreForge.Proofs.Searching
/-!
# Instances of an array of interfaces

An array that gives no patterns names its instances by its own texts and an index in decimal digits.
The name of a declaration may end in digits and the name of a port may start with some, but behind the
index in a physical prefix stands an underscore, so that the index ends there: two instances have
no name of a port in common (`BusDeclaration.expand_array`).
-/

namespace CoreForge

open CoreForge.Number CoreForge.Text

/-! ## Replacing -/

namespace Text
variable {pattern : List Char} (new : List Char)

theorem replaceFrom_skip (passed b : List Char) :
    replaceFrom pattern new passed.length (passed ++ b) = replaceFrom pattern new 0 b := by
  induction passed with
  | nil => rfl
  | cons c passed ih => exact ih

/-- A text without the pattern is left as it is. -/
theorem replace_of_absent {cs : List Char} (h : ¬ pattern <:+: cs) : replace pattern new cs = cs := by
  unfold replace
  induction cs with
  | nil => rfl
  | cons c cs ih =>
    have hstart : afterStart? pattern (c :: cs) = none := afterStart?_eq_none_iff.2 fun hprefix => h hprefix.isInfix
    have hrest := ih fun hwithin => h (hwithin.trans (List.suffix_cons c cs).isInfix)
    simp only [replaceFrom, hstart, hrest]

/-- The first occurrence of the pattern is replaced, and the text goes on behind it. -/
theorem replace_append (hp : pattern ≠ []) {a : List Char} (h : ¬ pattern <:+: a ++ pattern.dropLast) (b : List Char) :
    replace pattern new (a ++ (pattern ++ b)) = a ++ (new ++ replace pattern new b) := by
  unfold replace
  induction a with
  | nil =>
    cases pattern with
    | nil => contradiction
    | cons p ps =>
      have hstart : afterStart? (p :: ps) (p :: (ps ++ b)) = some b := afterStart?_eq_some_iff.2 rfl
      have hskip : replaceFrom (p :: ps) new ps.length (ps ++ b) = replaceFrom (p :: ps) new 0 b := replaceFrom_skip new ps b
      simp only [List.nil_append, List.cons_append, replaceFrom, hstart, List.length_cons, Nat.add_sub_cancel, hskip]
  | cons c a ih =>
    have hstart : afterStart? pattern (c :: (a ++ (pattern ++ b))) = none :=
      afterStart?_eq_none_iff.2 (not_starts_of_absent h b)
    have hrest := ih fun hwithin => h (hwithin.trans (List.suffix_cons _ _).isInfix)
    simp only [List.cons_append, replaceFrom, hstart, hrest]

/-- A pattern that has its first character nowhere else does not start in a text that it does not stand in. -/
theorem absent_append_dropLast {p : Char} {ps a : List Char} (hp : p ∉ ps) (h : ¬ p :: ps <:+: a) :
    ¬ p :: ps <:+: a ++ (p :: ps).dropLast := by
  intro hwithin
  rcases List.infix_append_iff.1 hwithin with hfirst | hsecond | ⟨u, v, huv, hu, hv⟩
  · exact h hfirst
  · have hlength := hsecond.length_le
    simp only [List.length_dropLast, List.length_cons] at hlength
    omega
  · cases u with
    | nil =>
      obtain rfl : p :: ps = v := huv
      have hlength := hv.length_le
      rw [List.length_dropLast, List.length_cons] at hlength
      omega
    | cons q u =>
      rw [List.cons_append] at huv
      obtain ⟨rfl, rfl⟩ := List.cons_eq_cons.1 huv
      cases v with
      | nil =>
        rw [List.append_nil] at h
        exact h hu.isInfix
      | cons r v =>
        -- The part behind starts like the pattern, with a character that it does not have there.
        have hne : u ++ r :: v ≠ [] := by simp
        rw [List.dropLast_cons_of_ne_nil hne, List.cons_prefix_cons] at hv
        exact hp (by simp [hv.1])

end Text

/-! ## The default patterns -/

namespace BusDeclaration
variable {d : BusDeclaration} {a : ArraySpec}

theorem replace_indexMark (new : List Char) {stem rest : List Char} (hstem : ¬ indexMark <:+: stem)
    (hrest : ¬ indexMark <:+: rest) : replace indexMark new (stem ++ (indexMark ++ rest)) = stem ++ (new ++ rest) := by
  have hfirst : ¬ indexMark <:+: stem ++ indexMark.dropLast := absent_append_dropLast (by decide) hstem
  rw [replace_append new (by decide) hfirst, replace_of_absent new hrest]

/-- The declaration is an array that gives no patterns, and its own texts hold no mark of an index. -/
structure Unpatterned (d : BusDeclaration) (a : ArraySpec) : Prop where
  array : d.array = some a
  namingPattern : a.namingPattern = none
  physicalPrefixPattern : a.physicalPrefixPattern = none
  name : ¬ indexMark <:+: d.name.toList
  physicalPrefix : ∀ p ∈ d.physicalPrefix, ¬ indexMark <:+: p.toList

theorem Unpatterned.basePrefix (h : d.Unpatterned a) : ¬ indexMark <:+: d.basePrefix.toList := by
  unfold BusDeclaration.basePrefix
  cases hprefix : d.physicalPrefix with
  | none => decide
  | some p => exact h.physicalPrefix p hprefix

/-- The name of the instance at an index. -/
def indexedName (d : BusDeclaration) (index : Nat) : String := d.name ++ "_" ++ toString index

/-- The physical prefix of the instance at an index. -/
def indexedPrefix (d : BusDeclaration) (index : Nat) : String := d.basePrefix ++ toString index ++ "_"

theorem Unpatterned.fillIndex_namePattern (h : d.Unpatterned a) (index : UInt32) :
    fillIndex (d.namePattern a) index = d.indexedName index.toNat := by
  have hstem : ¬ indexMark <:+: d.name.toList ++ ['_'] := by
    intro hwithin
    rcases List.infix_concat_iff.1 hwithin with ⟨before, hend⟩ | hname
    · -- The mark ends with a brace.
      have hlast := congrArg List.getLast? hend
      rw [List.getLast?_concat, List.getLast?_append_of_ne_nil _ (by decide)] at hlast
      revert hlast
      decide
    · exact h.name hname
  have hrest : ¬ indexMark <:+: ([] : List Char) := by decide
  have hfilled := replace_indexMark (toString index.toNat).toList hstem hrest
  apply String.toList_inj.1
  simpa [fillIndex, namePattern, h.namingPattern, indexedName] using hfilled

theorem Unpatterned.fillIndex_prefixPattern (h : d.Unpatterned a) (index : UInt32) :
    fillIndex (d.prefixPattern a) index = d.indexedPrefix index.toNat := by
  have hrest : ¬ indexMark <:+: ['_'] := by decide
  have hfilled := replace_indexMark (toString index.toNat).toList h.basePrefix hrest
  apply String.toList_inj.1
  simpa [fillIndex, prefixPattern, h.physicalPrefixPattern, indexedPrefix] using hfilled

/-! ## Instances apart from each other -/

/-- An index that an underscore stands behind is read back from a text that starts with it. -/
theorem indexedPrefix_append_inj {i j : Nat} {x y : List Char}
    (h : (d.indexedPrefix i).toList ++ x = (d.indexedPrefix j).toList ++ y) : i = j ∧ x = y := by
  have hcloses : ∀ cs, Closes ('_' :: cs) := fun cs => closes_cons (by decide) (by decide)
  simp only [indexedPrefix, String.toList_append, List.append_assoc, Nat.toString_eq_ofList_toDigits,
    String.toList_ofList] at h
  obtain ⟨hindex, hbehind⟩ := toDigits_append_inj (hcloses x) (hcloses y) (List.append_cancel_left h)
  exact ⟨hindex, (List.cons_eq_cons.1 hbehind).2⟩

theorem indexedName_inj {i j : Nat} (h : d.indexedName i = d.indexedName j) : i = j := by
  have hchars := congrArg (String.toList · ++ []) h
  simp only [indexedName, String.toList_append, List.append_assoc, Nat.toString_eq_ofList_toDigits,
    String.toList_ofList] at hchars
  exact (toDigits_append_inj closes_nil closes_nil (List.append_cancel_left (List.append_cancel_left hchars))).1

end BusDeclaration

/-- The instances have different names, none of their physical prefixes continues the other, and no port of
one has the name of a port of the other. -/
structure BusInstance.Apart (b b' : BusInstance) : Prop where
  name : b.name ≠ b'.name
  not_extended : ¬ b.physicalPrefix.toList <+: b'.physicalPrefix.toList
  not_extending : ¬ b'.physicalPrefix.toList <+: b.physicalPrefix.toList
  ports : ∀ p ∈ b.ports, ∀ p' ∈ b'.ports, p.name ≠ p'.name

namespace BusDeclaration
variable {d : BusDeclaration} {a : ArraySpec}

/-- The instance is the one at an index. -/
structure StandsAt (d : BusDeclaration) (index : Nat) (b : BusInstance) : Prop where
  name : b.name = d.indexedName index
  physicalPrefix : b.physicalPrefix = d.indexedPrefix index
  ports : ∀ p ∈ b.ports, p.name = d.indexedPrefix index ++ lower p.logicalName

theorem apart_of_index_ne {i j : Nat} {b b' : BusInstance} (hb : d.StandsAt i b) (hb' : d.StandsAt j b') (h : i ≠ j) :
    b.Apart b' where
  name := by
    rw [hb.name, hb'.name]
    intro hname
    exact h (indexedName_inj hname)
  not_extended := by
    rw [hb.physicalPrefix, hb'.physicalPrefix]
    rintro ⟨rest, hrest⟩
    rw [← List.append_nil (d.indexedPrefix j).toList] at hrest
    exact h (indexedPrefix_append_inj hrest).1
  not_extending := by
    rw [hb.physicalPrefix, hb'.physicalPrefix]
    rintro ⟨rest, hrest⟩
    rw [← List.append_nil (d.indexedPrefix i).toList] at hrest
    exact h (indexedPrefix_append_inj hrest).1.symm
  ports := by
    intro p hp p' hp' hname
    rw [hb.ports p hp, hb'.ports p' hp'] at hname
    have hchars := congrArg String.toList hname
    rw [String.toList_append, String.toList_append] at hchars
    exact h (indexedPrefix_append_inj hchars).1

/-- The ports of one instance have different names when their logical names differ in more than case. -/
theorem StandsAt.nodup_ports {i : Nat} {b : BusInstance} (hb : d.StandsAt i b)
    (h : (b.ports.map fun p => lower p.logicalName).Nodup) : (b.ports.map (·.name)).Nodup := by
  have hnames : b.ports.map (·.name) = (b.ports.map fun p => lower p.logicalName).map (d.indexedPrefix i ++ ·) := by
    rw [List.map_map]
    exact List.map_congr_left hb.ports
  rw [hnames]
  exact h.map (fun s t hst => (String.append_right_inj _).1 hst)

theorem Unpatterned.standsAt (h : d.Unpatterned a) {position : Nat} {library : BusLibrary} {b : BusInstance}
    (hb : d.InstanceOf position library b) {index : Nat} (hindex : b.arrayIndex.map UInt32.toNat = some index) :
    d.StandsAt index b := by
  obtain ⟨i, hi, rfl⟩ := Option.map_eq_some_iff.1 hindex
  have hnames := hb.names
  simp only [Names, h.array, hi] at hnames
  have hname : b.name = d.indexedName i.toNat := hnames.1.trans (h.fillIndex_namePattern i)
  have hprefix : b.physicalPrefix = d.indexedPrefix i.toNat := hnames.2.trans (h.fillIndex_prefixPattern i)
  refine ⟨hname, hprefix, ?_⟩
  have hports : List.Forall₂ (fun q p => q.name = d.indexedPrefix i.toNat ++ lower q.logicalName ∧
      d.PortOf b.physicalPrefix p q) b.ports (d.activePorts ((library.ports? b.protocol.key).getD [])) := by
    refine hb.ports.flip.imp fun q p hport => ⟨?_, hport⟩
    rw [hport.name, hport.logicalName, hprefix]
  exact ((List.forall₂_and_left _ _).1 hports).1

/-- The instances of an array without patterns, one for each index. -/
theorem Unpatterned.forall₂_standsAt (h : d.Unpatterned a) {position : Nat} {library : BusLibrary}
    {instances : List BusInstance} (hgroup : d.InstanceGroup position library instances) :
    List.Forall₂ d.StandsAt (List.range' a.indexStart.toNat a.count.toNat) instances := by
  have hindices := hgroup.indices
  rw [indices, h.array, ← List.forall₂_eq_eq_eq, List.forall₂_map_left_iff, List.forall₂_map_right_iff] at hindices
  have hinstances := (List.forall₂_and_left _ _).2 ⟨hgroup.instances, hindices⟩
  exact hinstances.flip.imp fun index b hb => h.standsAt hb.1 hb.2

section Standing
variable {start count : Nat} {instances : List BusInstance}

theorem standsAt_getElem (h : List.Forall₂ d.StandsAt (List.range' start count) instances) {i : Nat}
    (hi : i < instances.length) : d.StandsAt (start + i) instances[i] := by
  obtain ⟨hlength, hstands⟩ := List.forall₂_iff_get.1 h
  simpa using hstands i (by omega) hi

theorem pairwise_apart (h : List.Forall₂ d.StandsAt (List.range' start count) instances) :
    instances.Pairwise BusInstance.Apart := by
  rw [List.pairwise_iff_getElem]
  intro i j hi hj hij
  exact apart_of_index_ne (standsAt_getElem h hi) (standsAt_getElem h hj) (by omega)

end Standing

/-- An array without patterns has an instance for each index, named by it, and no two of them have a name in
common. The ports of one have different names when their logical names differ in more than case. -/
theorem expand_array (h : d.Unpatterned a) {position : Nat} {library : BusLibrary} {strict : Bool}
    {instances : List BusInstance} (hexpand : d.expand position library strict = .ok instances) :
    List.Forall₂ d.StandsAt (List.range' a.indexStart.toNat a.count.toNat) instances ∧
      instances.Pairwise BusInstance.Apart ∧
      ∀ b ∈ instances, (b.ports.map fun p => lower p.logicalName).Nodup → (b.ports.map (·.name)).Nodup := by
  have hstands := h.forall₂_standsAt (instanceGroup_of_expand hexpand)
  refine ⟨hstands, pairwise_apart hstands, ?_⟩
  intro b hb hports
  obtain ⟨i, hi, rfl⟩ := List.getElem_of_mem hb
  exact (standsAt_getElem hstands hi).nodup_ports hports

/-- An interface whose texts have digits where an index comes to stand. -/
def channels : BusDeclaration :=
  { (default : BusDeclaration) with
    name := "ch_1"
    protocolType := "AXI4L"
    physicalPrefix := some "p1"
    array := some { (default : ArraySpec) with count := 12 } }

/-- Ports whose names go on where an index ends. -/
def channelPorts : BusLibrary :=
  .ofDefinitions (.ofList [("AXI4L", [⟨"1_A", 1, .output, .required⟩, ⟨"_A", 1, .output, .required⟩])])

theorem expand_array_digits :
    channels.Unpatterned { (default : ArraySpec) with count := 12 } ∧
      ∃ instances, channels.expand 0 channelPorts true = .ok instances ∧
        (instances.map fun b => (b.name, b.ports.map (·.name))).take 2 =
          [("ch_1_0", ["p10_1_a", "p10__a"]), ("ch_1_1", ["p11_1_a", "p11__a"])] ∧
        instances.Pairwise BusInstance.Apart := by
  have h : channels.Unpatterned { (default : ArraySpec) with count := 12 } := ⟨rfl, rfl, rfl, by decide, by decide⟩
  obtain ⟨instances, hexpand, hnames⟩ : ∃ instances, channels.expand 0 channelPorts true = .ok instances ∧
      (instances.map fun b => (b.name, b.ports.map (·.name))).take 2 =
        [("ch_1_0", ["p10_1_a", "p10__a"]), ("ch_1_1", ["p11_1_a", "p11__a"])] := ⟨_, rfl, rfl⟩
  exact ⟨h, instances, hexpand, hnames, (expand_array h hexpand).2.1⟩

end BusDeclaration

end CoreForge
