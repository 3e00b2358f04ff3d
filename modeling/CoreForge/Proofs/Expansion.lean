import Mathlib.Data.List.Basic
import Mathlib.Data.List.Forall2
import CoreForge.Bus.Expansion
import CoreForge.Proofs.Words
/-!
# What an expansion consists of

A list of declared interfaces is expanded as a whole or not at all. It fails when one of the
declarations cannot be expanded, with the failure of the first of them: `Rejected` says what that is.
Otherwise every declaration has its group of instances (`InstanceGroup`), and each instance has a
port for every active port of the protocol (`InstanceOf`). The split into primary and secondary
ports loses none of them.
-/

namespace CoreForge

open CoreForge.Number CoreForge.Text

/-! ## Attempts one after the other -/

section Attempts
variable {α β ε : Type} {f : α → Except ε β}

theorem mapM_eq_ok_iff {xs : List α} {ys : List β} :
    xs.mapM f = .ok ys ↔ List.Forall₂ (fun x y => f x = .ok y) xs ys := by
  induction xs generalizing ys with
  | nil => cases ys <;> simp [pure, Except.pure]
  | cons x xs ih =>
    rw [List.mapM_cons, List.forall₂_cons_left_iff]
    cases hx : f x with
    | error e => simp [bind, Except.bind]
    | ok y =>
      cases hxs : xs.mapM f with
      | error e => simp [bind, Except.bind, ← ih, hxs]
      | ok ys => simp [bind, Except.bind, pure, Except.pure, ← ih, hxs, eq_comm]

theorem exists_mapM_eq_ok_iff {xs : List α} : (∃ ys, xs.mapM f = .ok ys) ↔ ∀ x ∈ xs, ∃ y, f x = .ok y := by
  simp only [mapM_eq_ok_iff]
  induction xs with
  | nil => simp
  | cons x xs ih => simp [List.forall₂_cons_left_iff, ← ih]

/-- The first attempt that fails decides. -/
theorem exists_of_mapM_eq_error {xs : List α} {e : ε} (h : xs.mapM f = .error e) :
    ∃ before x after, xs = before ++ x :: after ∧ (∀ b ∈ before, ∃ y, f b = .ok y) ∧ f x = .error e := by
  induction xs with
  | nil => cases h
  | cons x xs ih =>
    rw [List.mapM_cons] at h
    cases hx : f x with
    | error e' =>
      rw [hx] at h
      cases h
      exact ⟨[], x, xs, rfl, by simp, hx⟩
    | ok y =>
      cases hxs : xs.mapM f with
      | error e' =>
        rw [hx, hxs] at h
        cases h
        obtain ⟨before, x', after, rfl, hbefore, hx'⟩ := ih hxs
        exact ⟨x :: before, x', after, rfl, List.forall_mem_cons.2 ⟨⟨y, hx⟩, hbefore⟩, hx'⟩
      | ok ys =>
        rw [hx, hxs] at h
        cases h

end Attempts

/-- What goes into one side of a port comes out of the other. -/
inductive Direction.Opposite : Direction → Direction → Prop
  | input : Opposite .input .output
  | output : Opposite .output .input
  | inout : Opposite .inout .inout

theorem Direction.opposite_iff {d d' : Direction} : d.Opposite d' ↔ d' = d.flipped := by
  constructor
  · intro h
    cases h <;> rfl
  · rintro rfl
    cases d <;> constructor

namespace BusDeclaration

variable {d : BusDeclaration} {strict : Bool}

/-! ## One declaration -/

/-- The protocol is known, or another one may stand in for it. -/
def Recognized (d : BusDeclaration) (strict : Bool) : Prop :=
  (Protocol.ofName? d.protocolType).isSome ∨ strict = false

/-- The last index of the array fits 32 bits. -/
def IndicesFit (d : BusDeclaration) : Prop :=
  ∀ a, d.array = some a → a.count = 0 ∨ a.indexStart.toNat + a.count.toNat - 1 ≤ max32

/-- The declaration can be expanded. -/
def Expandable (d : BusDeclaration) (strict : Bool) : Prop := d.Recognized strict ∧ d.IndicesFit

/-- Why a declaration cannot be expanded. The protocol is looked at first; the index that is
refused is the first one that does not fit. -/
inductive Rejected (d : BusDeclaration) (strict : Bool) : Failure → Prop
  | protocol : ¬ d.Recognized strict → Rejected d strict (.unknownProtocol d.protocolType)
  | index (a : ArraySpec) (i : Nat) : d.Recognized strict → d.array = some a → i < a.count.toNat →
      a.indexStart.toNat + i = max32 + 1 → Rejected d strict (.indexOutOfRange d.name a.indexStart.toNat i)

/-- The indices of the instances, one after the other. -/
def indices (d : BusDeclaration) : List (Option Nat) :=
  match d.array with
  | none => [none]
  | some a => (List.range' a.indexStart.toNat a.count.toNat).map some

/-- The name and the prefix of the instance at an index: those of the declaration, or the patterns of the array
with the index in them. -/
def Names (d : BusDeclaration) (name physicalPrefix : String) (index : Option UInt32) : Prop :=
  let stem := d.physicalPrefix.getD "s_axi_"
  match d.array, index with
  | some a, some i =>
    name = fillIndex (a.namingPattern.getD (d.name ++ "_" ++ String.ofList indexMark)) i ∧
      physicalPrefix = fillIndex (a.physicalPrefixPattern.getD (stem ++ String.ofList indexMark ++ "_")) i
  | _, _ => name = d.name ∧ physicalPrefix = stem

theorem protocol_of_recognized (h : d.Recognized strict) :
    d.protocol strict =
      .ok ((Protocol.ofName? d.protocolType).getD .axi4Lite, (Protocol.ofName? d.protocolType).isNone) := by
  unfold protocol
  cases hp : Protocol.ofName? d.protocolType with
  | some p => rfl
  | none =>
    have hstrict : strict = false := by simpa [Recognized, hp] using h
    simp [hstrict]

theorem protocol_of_not_recognized (h : ¬ d.Recognized strict) :
    d.protocol strict = .error (.unknownProtocol d.protocolType) := by
  obtain ⟨hprotocol, hstrict⟩ := not_or.1 h
  rw [protocol, Option.not_isSome_iff_eq_none.1 hprotocol]
  exact if_pos (by simpa using hstrict)

theorem indicesFit_iff {a : ArraySpec} (ha : d.array = some a) :
    d.IndicesFit ↔ a.indexStart.toNat + a.count.toNat ≤ max32 + 1 := by
  have hstart := a.indexStart.toNat_lt
  have hzero : a.count = 0 ↔ a.count.toNat = 0 := by rw [← UInt32.toNat_inj, UInt32.toNat_zero]
  simp only [IndicesFit, ha, Option.some.injEq, forall_eq', hzero, max32]
  omega

/-- The slots of a declaration whose indices fit. -/
theorem slots_of_indicesFit (h : d.IndicesFit) :
    ∃ slots, d.slots = .ok slots ∧ slots.map (fun s => s.index.map UInt32.toNat) = d.indices ∧
      ∀ s ∈ slots, d.Names s.name s.physicalPrefix s.index := by
  unfold slots indices Names
  cases ha : d.array with
  | none => exact ⟨_, rfl, rfl, List.forall_mem_singleton.2 ⟨rfl, rfl⟩⟩
  | some a =>
    have hfit := (indicesFit_iff ha).1 h
    refine ⟨_, if_pos hfit, ?_, List.forall_mem_map.2 fun i _ => ⟨rfl, rfl⟩⟩
    simp only [List.range'_eq_map_range, List.map_map]
    refine List.map_congr_left fun i hi => ?_
    have hlt := List.mem_range.1 hi
    simp only [Function.comp_apply, arraySlot, Option.map_some, toNat_clamp32, Option.some.injEq]
    omega

theorem slots_of_not_indicesFit (h : ¬ d.IndicesFit) :
    ∃ a i, d.array = some a ∧ i < a.count.toNat ∧ a.indexStart.toNat + i = max32 + 1 ∧
      d.slots = .error (.indexOutOfRange d.name a.indexStart.toNat i) := by
  cases ha : d.array with
  | none => simp [IndicesFit, ha] at h
  | some a =>
    have hlarge := (indicesFit_iff ha).not.1 h
    have hstart := toNat_le_max32 a.indexStart
    -- The index that is refused is the first one behind the largest word, and the array reaches it.
    refine ⟨a, max32 + 1 - a.indexStart.toNat, rfl, ?_, ?_, ?_⟩
    · omega
    · omega
    · simp only [slots, ha]
      exact if_neg hlarge

/-! ## Instances and their ports -/

/-- The ports of a protocol that an interface has: none for the clock or the reset of the bus
itself, and an optional one when it is asked for. -/
def activePorts (d : BusDeclaration) (ports : List BusPort) : List BusPort :=
  ports.filter fun p =>
    (∀ s ∈ ownSignals, lower s ≠ lower p.name) ∧
      (p.presence = .required ∨ ∃ s ∈ d.useOptionalPorts, lower s = lower p.name)

/-- The width that an interface has for a port of the protocol: that of the first override of
the port, in any case of its name, or the one of the protocol. -/
inductive HasWidth (d : BusDeclaration) (p : BusPort) : UInt32 → Prop
  | overridden {before name width after} : d.portWidthOverrides.entries = before ++ (name, width) :: after →
      lower name = lower p.name → (∀ o ∈ before, lower o.1 ≠ lower p.name) → HasWidth d p width
  | own : (∀ o ∈ d.portWidthOverrides.entries, lower o.1 ≠ lower p.name) → HasWidth d p p.width

/-- The port of an instance is the one for a port of the protocol, whose direction is the one
at the master. -/
structure PortOf (d : BusDeclaration) (physicalPrefix : String) (p : BusPort) (q : InstancePort) : Prop where
  logicalName : q.logicalName = p.name
  name : q.name = physicalPrefix ++ lower p.name
  master : d.mode = .master → q.direction = p.direction
  slave : d.mode = .slave → p.direction.Opposite q.direction
  width : d.HasWidth p q.width
  presence : q.presence = p.presence

/-- The instance is one of a declaration at a position. An unknown protocol has AXI4-Lite standing in
for it. -/
structure InstanceOf (d : BusDeclaration) (position : Nat) (library : BusLibrary) (b : BusInstance) : Prop where
  declarationIndex : b.declarationIndex = position
  names : d.Names b.name b.physicalPrefix b.arrayIndex
  declared : (b.protocolType, b.mode, b.associatedClock, b.associatedReset) =
    (d.protocolType, d.mode, d.associatedClock, d.associatedReset)
  protocol : b.protocol = (Protocol.ofName? d.protocolType).getD .axi4Lite
  isFallback : b.isFallback = (Protocol.ofName? d.protocolType).isNone
  ports : List.Forall₂ (d.PortOf b.physicalPrefix) (d.activePorts ((library.ports? b.protocol.key).getD [])) b.ports

/-- The instances are those of a declaration at a position, one for each index. -/
structure InstanceGroup (d : BusDeclaration) (position : Nat) (library : BusLibrary) (group : List BusInstance) :
    Prop where
  indices : group.map (fun b => b.arrayIndex.map UInt32.toNat) = d.indices
  instances : ∀ b ∈ group, d.InstanceOf position library b

theorem activePorts_eq (d : BusDeclaration) (ports : List BusPort) : ports.filter d.hasPort = d.activePorts ports := by
  refine List.filter_congr fun p _ => ?_
  rw [Bool.eq_iff_iff]
  simp [hasPort, isOwnSignal, usesOptional, sameIgnoringCase]

theorem hasWidth_override (d : BusDeclaration) (p : BusPort) : d.HasWidth p ((d.widthOverride? p.name).getD p.width) := by
  unfold widthOverride?
  cases hfind : d.portWidthOverrides.entries.find? (sameIgnoringCase ·.1 p.name) with
  | none =>
    refine .own fun o ho => ?_
    simpa [sameIgnoringCase] using List.find?_eq_none.1 hfind o ho
  | some o =>
    obtain ⟨hname, before, after, hentries, hbefore⟩ := List.find?_eq_some_iff_append.1 hfind
    refine .overridden hentries (by simpa [sameIgnoringCase] using hname) fun o ho => ?_
    simpa [sameIgnoringCase] using hbefore o ho

theorem portOf_instancePort (d : BusDeclaration) (physicalPrefix : String) (p : BusPort) :
    d.PortOf physicalPrefix p (d.instancePort physicalPrefix p) where
  logicalName := rfl
  name := rfl
  master h := by rw [instancePort, h]
  slave h := by
    rw [instancePort, h]
    exact Direction.opposite_iff.2 rfl
  width := d.hasWidth_override p
  presence := rfl

theorem forall₂_resolvePorts (d : BusDeclaration) (ports : List BusPort) (physicalPrefix : String) :
    List.Forall₂ (d.PortOf physicalPrefix) (d.activePorts ports) (d.resolvePorts ports physicalPrefix) := by
  rw [resolvePorts, activePorts_eq, List.forall₂_map_right_iff, List.forall₂_same]
  exact fun p _ => d.portOf_instancePort physicalPrefix p

theorem expand_eq_ok (position : Nat) (library : BusLibrary) (h : d.Expandable strict) :
    ∃ group, d.expand position library strict = .ok group ∧ d.InstanceGroup position library group := by
  obtain ⟨hprotocol, hfit⟩ := h
  obtain ⟨slots, hslots, hindices, hnames⟩ := slots_of_indicesFit hfit
  refine ⟨_, by rw [expand, protocol_of_recognized hprotocol, hslots]; rfl, ?_, ?_⟩
  · rw [List.map_map, ← hindices]
    rfl
  · rw [List.forall_mem_map]
    exact fun slot hslot => ⟨rfl, hnames slot hslot, rfl, rfl, rfl, forall₂_resolvePorts d _ _⟩

theorem expand_eq_error (position : Nat) (library : BusLibrary) (h : ¬ d.Expandable strict) :
    ∃ f, d.expand position library strict = .error f ∧ d.Rejected strict f := by
  -- The protocol is looked at first, so the indices matter only when it is recognized.
  by_cases hprotocol : d.Recognized strict
  · obtain ⟨a, i, ha, hlt, hlimit, hslots⟩ := slots_of_not_indicesFit fun hfit => h ⟨hprotocol, hfit⟩
    exact ⟨_, by rw [expand, protocol_of_recognized hprotocol, hslots]; rfl, .index a i hprotocol ha hlt hlimit⟩
  · exact ⟨_, by rw [expand, protocol_of_not_recognized hprotocol]; rfl, .protocol hprotocol⟩

theorem exists_expand_iff (position : Nat) (library : BusLibrary) :
    (∃ group, d.expand position library strict = .ok group) ↔ d.Expandable strict := by
  constructor
  · rintro ⟨group, hgroup⟩
    by_contra h
    obtain ⟨f, hf, -⟩ := expand_eq_error position library h
    rw [hgroup] at hf
    cases hf
  · intro h
    obtain ⟨group, hgroup, -⟩ := expand_eq_ok position library h
    exact ⟨group, hgroup⟩

theorem instanceGroup_of_expand {position : Nat} {library : BusLibrary} {group : List BusInstance}
    (h : d.expand position library strict = .ok group) : d.InstanceGroup position library group := by
  have hexpandable := (exists_expand_iff position library).1 ⟨group, h⟩
  obtain ⟨group', hgroup', hspec⟩ := expand_eq_ok position library hexpandable
  rw [h] at hgroup'
  cases hgroup'
  exact hspec

theorem rejected_of_expand {position : Nat} {library : BusLibrary} {f : Failure}
    (h : d.expand position library strict = .error f) : d.Rejected strict f := by
  have hcannot : ¬ d.Expandable strict := by
    rw [← exists_expand_iff position library, h]
    simp
  obtain ⟨f', hf', hspec⟩ := expand_eq_error position library hcannot
  rw [h] at hf'
  cases hf'
  exact hspec

/-! ## All declarations -/

theorem expandAll_eq_ok_iff {ds : List BusDeclaration} {library : BusLibrary} {instances : List BusInstance} :
    expandAll ds library strict = .ok instances ↔
      ∃ groups, List.Forall₂ (fun p group => p.1.expand p.2 library strict = .ok group) ds.zipIdx groups ∧
        instances = groups.flatten := by
  simp only [← mapM_eq_ok_iff, expandAll]
  cases h : ds.zipIdx.mapM fun p => p.1.expand p.2 library strict with
  | error f => simp [bind, Except.bind]
  | ok groups => simp [bind, Except.bind, pure, Except.pure, eq_comm]

theorem expandAll_eq_error_iff {ds : List BusDeclaration} {library : BusLibrary} {f : Failure} :
    expandAll ds library strict = .error f ↔
      (ds.zipIdx.mapM fun p => p.1.expand p.2 library strict) = .error f := by
  rw [expandAll]
  cases h : ds.zipIdx.mapM fun p => p.1.expand p.2 library strict with
  | error f => simp [bind, Except.bind]
  | ok groups => simp [bind, Except.bind, pure, Except.pure]

theorem exists_expandAll_iff (ds : List BusDeclaration) (library : BusLibrary) (strict : Bool) :
    (∃ instances, expandAll ds library strict = .ok instances) ↔ ∀ d ∈ ds, d.Expandable strict := by
  calc (∃ instances, expandAll ds library strict = .ok instances)
      ↔ ∃ groups, (ds.zipIdx.mapM fun p => p.1.expand p.2 library strict) = .ok groups := by
        simp [expandAll_eq_ok_iff, mapM_eq_ok_iff]
    _ ↔ ∀ p ∈ ds.zipIdx, ∃ group, p.1.expand p.2 library strict = .ok group := exists_mapM_eq_ok_iff
    _ ↔ ∀ p ∈ ds.zipIdx, p.1.Expandable strict := by simp only [exists_expand_iff]
    _ ↔ ∀ d ∈ ds.zipIdx.map Prod.fst, d.Expandable strict :=
      (List.forall_mem_map (P := (Expandable · strict))).symm
    _ ↔ ∀ d ∈ ds, d.Expandable strict := by rw [List.zipIdx_map_fst]

theorem rejected_of_expandAll {ds : List BusDeclaration} {library : BusLibrary} {f : Failure}
    (h : expandAll ds library strict = .error f) :
    ∃ before d after, ds = before ++ d :: after ∧ (∀ b ∈ before, b.Expandable strict) ∧
      d.Rejected strict f := by
  obtain ⟨before, ⟨d, position⟩, after, hsplit, hbefore, hd⟩ :=
    exists_of_mapM_eq_error (expandAll_eq_error_iff.1 h)
  have hds := congrArg (List.map Prod.fst) hsplit
  rw [List.zipIdx_map_fst, List.map_append, List.map_cons] at hds
  simp only [exists_expand_iff] at hbefore
  exact ⟨_, d, _, hds, List.forall_mem_map.2 hbefore, rejected_of_expand hd⟩

end BusDeclaration

/-! ## The primary interface and the others -/

namespace BusInstance

theorem primary_append_secondary (bs : List BusInstance) :
    primaryPorts bs ++ secondaryPorts bs = bs.flatMap (·.ports) := by
  cases bs with
  | nil => rfl
  | cons b bs =>
    rw [primaryPorts, secondaryPorts, List.flatMap_cons]
    split <;> simp

theorem primaryPorts_of_pos {bs : List BusInstance} (h : ∀ b ∈ bs, 0 < b.declarationIndex) : primaryPorts bs = [] := by
  cases bs with
  | nil => rfl
  | cons b bs =>
    have hb := h b List.mem_cons_self
    exact if_neg (by omega)

/-- Instances of later declarations come later. -/
theorem le_declarationIndex {library : BusLibrary} {ds : List BusDeclaration} {n : Nat} {groups : List (List BusInstance)}
    (h : List.Forall₂ (fun p group => p.1.InstanceGroup p.2 library group) (ds.zipIdx n) groups) :
    ∀ b ∈ groups.flatten, n ≤ b.declarationIndex := by
  induction ds generalizing n groups with
  | nil =>
    cases h
    simp
  | cons d ds ih =>
    rw [List.zipIdx_cons] at h
    cases h with
    | cons hgroup hrest =>
      intro b hb
      rcases List.mem_append.1 hb with hb | hb
      · exact Nat.le_of_eq (hgroup.instances b hb).declarationIndex.symm
      · have := ih hrest b hb
        omega

/-- The primary ports are those of the first instance of the first declaration, if it has one. -/
theorem primaryPorts_flatten {library : BusLibrary} {ds : List BusDeclaration} {groups : List (List BusInstance)}
    (h : List.Forall₂ (fun p group => p.1.InstanceGroup p.2 library group) ds.zipIdx groups) :
    primaryPorts groups.flatten = ((groups.head?.bind List.head?).map (·.ports)).getD [] := by
  cases ds with
  | nil =>
    cases h
    rfl
  | cons d ds =>
    rw [List.zipIdx_cons] at h
    cases h with
    | @cons _ group _ groups hgroup hrest =>
      cases group with
      -- Behind an array without instances, the first instance is one of a later declaration.
      | nil => exact primaryPorts_of_pos fun b hb => le_declarationIndex hrest b hb
      | cons b bs =>
        have hfirst := (hgroup.instances b List.mem_cons_self).declarationIndex
        exact if_pos hfirst

end BusInstance

/-- Expansion succeeds exactly when every declaration can be expanded, fails as the first one does that
cannot, and otherwise gives every declaration its instances in order. The ports of the first instance of the
first declaration are primary, and the ports of all others secondary. -/
theorem BusDeclaration.expandAll_exact (ds : List BusDeclaration) (library : BusLibrary) (strict : Bool) :
    ((∃ instances, expandAll ds library strict = .ok instances) ↔
      ∀ d ∈ ds, d.Expandable strict) ∧
    (∀ f, expandAll ds library strict = .error f →
      ∃ before d after, ds = before ++ d :: after ∧ (∀ b ∈ before, b.Expandable strict) ∧
        d.Rejected strict f) ∧
    ∀ instances, expandAll ds library strict = .ok instances →
      BusInstance.primaryPorts instances ++ BusInstance.secondaryPorts instances = instances.flatMap (·.ports) ∧
      ∃ groups, instances = groups.flatten ∧
        List.Forall₂ (fun p group => p.1.InstanceGroup p.2 library group) ds.zipIdx groups ∧
        BusInstance.primaryPorts instances = ((groups.head?.bind List.head?).map (·.ports)).getD [] := by
  refine ⟨exists_expandAll_iff ds library strict, fun f => rejected_of_expandAll, fun instances h => ?_⟩
  obtain ⟨groups, hgroups, rfl⟩ := expandAll_eq_ok_iff.1 h
  have hspec := hgroups.imp fun _ _ => instanceGroup_of_expand
  exact ⟨BusInstance.primary_append_secondary _, groups, rfl, hspec, BusInstance.primaryPorts_flatten hspec⟩

end CoreForge
