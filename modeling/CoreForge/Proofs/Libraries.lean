import CoreForge.Proofs.Characters
import CoreForge.Proofs.Expansion
/-!
# Which definition of a protocol is used

A library keeps one list of ports for each key. All spellings of a protocol have one key, so of several
definitions with spellings of the same protocol the last one is kept (`ports?_ofDefinitions`), and no
other name has the key of a protocol (`keyOf_eq_key_iff`). Only known protocols are ever looked up: a name
that spells none is unknown, whether or not the library has a definition under it.
-/

namespace CoreForge

/-! ## Entries of sorted maps -/

namespace SortedMap
variable {β : Type}

theorem find?_insertEntry (k k' : String) (v : β) (es : List (String × β)) :
    (insertEntry k v es).find? (·.1 == k') = if k = k' then some (k, v) else es.find? (·.1 == k') := by
  induction es with
  | nil => by_cases hk : k = k' <;> simp [insertEntry, hk]
  | cons e es ih =>
    unfold insertEntry
    split
    · by_cases hk : k = k' <;> simp [hk]
    · split
      · rename_i heq
        by_cases hk : k = k' <;> simp [hk, ← heq]
      · rename_i hne
        rw [List.find?_cons, List.find?_cons, ih]
        by_cases hk : k = k'
        · subst hk
          simp [beq_false_of_ne (Ne.symm hne)]
        · simp [hk]

theorem get?_insert (m : SortedMap β) (k k' : String) (v : β) :
    (m.insert k v).get? k' = if k = k' then some v else m.get? k' := by
  unfold get? insert
  rw [find?_insertEntry]
  split <;> rfl

theorem get?_foldl_insert {k : String} {es : List (String × β)} (h : ∀ e ∈ es, e.1 ≠ k) (m : SortedMap β) :
    (es.foldl (fun m e => m.insert e.1 e.2) m).get? k = m.get? k := by
  induction es generalizing m with
  | nil => rfl
  | cons e es ih =>
    obtain ⟨he, hes⟩ := List.forall_mem_cons.1 h
    rw [List.foldl_cons, ih hes, get?_insert, if_neg he]

/-- Of several entries with one key, the last counts. -/
theorem get?_ofList {k : String} {v : β} {after : List (String × β)} (before : List (String × β))
    (h : ∀ e ∈ after, e.1 ≠ k) : (ofList (before ++ (k, v) :: after)).get? k = some v := by
  rw [ofList, List.foldl_append, List.foldl_cons, get?_foldl_insert h, get?_insert, if_pos rfl]

end SortedMap

/-! ## Keys of protocols -/

namespace Protocol

theorem isSeparator_eq_false {c : Char} (h : c.isAlpha = true) : isSeparator c = false := by
  rw [← Bool.not_eq_true]
  intro hseparator
  simp only [isSeparator, Bool.or_eq_true, decide_eq_true_eq] at hseparator
  rcases hseparator with ((rfl | rfl) | rfl) | rfl <;> cases h

theorem isSeparator_toUpper (c : Char) : isSeparator c.toUpper = isSeparator c := by
  by_cases h : c.isAlpha = true
  · rw [isSeparator_eq_false h, isSeparator_eq_false (by rwa [Char.isAlpha_toUpper_eq_isAlpha])]
  · have hlower : ¬ c.isLower = true := fun hl => h (by simp [Char.isAlpha, hl])
    rw [Char.toUpper_eq_of_not_isLower hlower]

theorem squash_squash (name : String) : squash (squash name) = squash name := by
  simp [squash, List.filter_map, Function.comp_def, isSeparator_toUpper]

theorem ofName?_squash (name : String) : ofName? (squash name) = ofName? name := by
  rw [ofName?, squash_squash, ofName?]

theorem ofName?_key : ∀ p : Protocol, ofName? p.key = some p := by
  rintro (_ | _ | _ | _ | _) <;> decide +kernel

end Protocol

namespace BusLibrary

/-- The key of a protocol is kept for its spellings. -/
theorem keyOf_eq_key_iff {name : String} {p : Protocol} : keyOf name = p.key ↔ Protocol.ofName? name = some p := by
  unfold keyOf
  cases hname : Protocol.ofName? name with
  | some q =>
    constructor
    · intro h
      have hkey : q.key = p.key := h
      rw [← Protocol.ofName?_key q, hkey, Protocol.ofName?_key]
    · rintro ⟨⟩
      rfl
  | none =>
    constructor
    · intro h
      -- A squashed name that is a key spells the protocol of that key, and so does the name.
      have hkey : Protocol.squash name = p.key := h
      rw [← Protocol.ofName?_squash, hkey, Protocol.ofName?_key] at hname
      cases hname
    · intro h
      cases h

/-- These are the ports of the last definition under a spelling of the protocol. -/
def LastDefinition (definitions : SortedMap (List BusPort)) (p : Protocol) (ports : List BusPort) : Prop :=
  ∃ before name after, definitions.entries = before ++ (name, ports) :: after ∧ Protocol.ofName? name = some p ∧
    ∀ e ∈ after, Protocol.ofName? e.1 ≠ some p

/-- The ports that the definitions give a protocol: those of its last definition, and none
without a definition. -/
inductive Gives (definitions : SortedMap (List BusPort)) (p : Protocol) : List BusPort → Prop
  | last {ports} : LastDefinition definitions p ports → Gives definitions p ports
  | nothing : (∀ e ∈ definitions.entries, Protocol.ofName? e.1 ≠ some p) → Gives definitions p []

theorem ports?_ofDefinitions {definitions : SortedMap (List BusPort)} {p : Protocol} {ports : List BusPort}
    (h : LastDefinition definitions p ports) : (ofDefinitions definitions).ports? p.key = some ports := by
  obtain ⟨before, name, after, hentries, hname, hafter⟩ := h
  have hkey : keyOf name = p.key := keyOf_eq_key_iff.2 hname
  simp only [ports?, ofDefinitions, hentries, List.map_append, List.map_cons, hkey]
  refine SortedMap.get?_ofList _ ?_
  rw [List.forall_mem_map]
  exact fun e he hsame => hafter e he (keyOf_eq_key_iff.1 hsame)

/-- A protocol that has a definition has a last one. -/
theorem exists_lastDefinition {definitions : SortedMap (List BusPort)} {name : String} {ports : List BusPort}
    {p : Protocol} (hdef : (name, ports) ∈ definitions.entries) (hname : Protocol.ofName? name = some p) :
    ∃ ports', LastDefinition definitions p ports' := by
  -- Looked for from the end, the last definition is found first.
  have hfound : (definitions.entries.reverse.find? fun e => Protocol.ofName? e.1 = some p).isSome := by
    rw [List.find?_isSome]
    exact ⟨(name, ports), List.mem_reverse.2 hdef, by simpa using hname⟩
  obtain ⟨⟨name', ports'⟩, hlast⟩ := Option.isSome_iff_exists.1 hfound
  obtain ⟨hname', after, before, hsplit, hafter⟩ := List.find?_eq_some_iff_append.1 hlast
  refine ⟨ports', before.reverse, name', after.reverse, ?_, by simpa using hname', ?_⟩
  · simpa using congrArg List.reverse hsplit
  · intro e he
    simpa using hafter e (List.mem_reverse.1 he)

theorem ports?_ofDefinitions_of_undefined {definitions : SortedMap (List BusPort)} {p : Protocol}
    (h : ∀ e ∈ definitions.entries, Protocol.ofName? e.1 ≠ some p) : (ofDefinitions definitions).ports? p.key = none := by
  simp only [ports?, ofDefinitions, SortedMap.ofList]
  rw [SortedMap.get?_foldl_insert]
  · rfl
  · rw [List.forall_mem_map]
    exact fun e he hsame => h e he (keyOf_eq_key_iff.1 hsame)

/-- A library of definitions has the ports that they give. -/
theorem gives_ports? (definitions : SortedMap (List BusPort)) (p : Protocol) :
    Gives definitions p (((ofDefinitions definitions).ports? p.key).getD []) := by
  by_cases hdefined : ∃ e ∈ definitions.entries, Protocol.ofName? e.1 = some p
  · obtain ⟨⟨name, ports⟩, hdef, hname⟩ := hdefined
    obtain ⟨ports', hlast⟩ := exists_lastDefinition hdef hname
    rw [ports?_ofDefinitions hlast]
    exact .last hlast
  · have hnone : ∀ e ∈ definitions.entries, Protocol.ofName? e.1 ≠ some p := fun e he hname => hdefined ⟨e, he, hname⟩
    rw [ports?_ofDefinitions_of_undefined hnone]
    exact .nothing hnone

end BusLibrary

/-! ## Declarations with a defined protocol -/

namespace BusDeclaration

open BusLibrary

/-- The instances are those of an interface that speaks the protocol, one for each index, where the protocol has
the given ports. -/
structure Speaks (d : BusDeclaration) (p : Protocol) (isFallback : Bool) (ports : List BusPort)
    (group : List BusInstance) : Prop where
  indices : group.map (fun b => b.arrayIndex.map UInt32.toNat) = d.indices
  protocol : ∀ b ∈ group, b.protocol = p ∧ b.isFallback = isFallback
  ports : ∀ b ∈ group, List.Forall₂ (d.PortOf b.physicalPrefix) (d.activePorts ports) b.ports

section Speaks
variable {d : BusDeclaration} {position : Nat} {library : BusLibrary} {strict : Bool}

theorem exists_expand_iff_indicesFit (h : d.Recognized strict) :
    (∃ group, d.expand position library strict = .ok group) ↔ d.IndicesFit := by
  rw [exists_expand_iff]
  exact and_iff_right h

/-- What a declaration expands to speaks its protocol, or the one that stands in for it. -/
theorem InstanceGroup.speaks {group : List BusInstance} (h : d.InstanceGroup position library group) {p : Protocol}
    (hp : (Protocol.ofName? d.protocolType).getD .axi4Lite = p) :
    d.Speaks p (Protocol.ofName? d.protocolType).isNone ((library.ports? p.key).getD []) group := by
  have hprotocol : ∀ b ∈ group, b.protocol = p := fun b hb => (h.instances b hb).protocol.trans hp
  refine ⟨h.indices, fun b hb => ⟨hprotocol b hb, (h.instances b hb).isFallback⟩, fun b hb => ?_⟩
  rw [← hprotocol b hb]
  exact (h.instances b hb).ports

end Speaks

/-- An interface whose protocol has a definition in the library has the ports of the last definition of that
protocol, if the protocol is a known one. A definition under any other name is not used: the interface is
refused, or it has what the definitions give AXI4-Lite. -/
theorem expand_ofDefinitions (definitions : SortedMap (List BusPort)) (d : BusDeclaration) (position : Nat)
    (strict : Bool) {ports : List BusPort} (hdef : (d.protocolType, ports) ∈ definitions.entries) :
    match Protocol.ofName? d.protocolType with
    | some p =>
      ((∃ group, d.expand position (ofDefinitions definitions) strict = .ok group) ↔ d.IndicesFit) ∧
      ∃ ports', LastDefinition definitions p ports' ∧
        ∀ group, d.expand position (ofDefinitions definitions) strict = .ok group → d.Speaks p false ports' group
    | none =>
      if strict then
        d.expand position (ofDefinitions definitions) strict = .error (.unknownProtocol d.protocolType)
      else
        ((∃ group, d.expand position (ofDefinitions definitions) strict = .ok group) ↔ d.IndicesFit) ∧
        ∃ ports', Gives definitions .axi4Lite ports' ∧
          ∀ group, d.expand position (ofDefinitions definitions) strict = .ok group →
            d.Speaks .axi4Lite true ports' group := by
  split
  · rename_i p hp
    have hrecognized : d.Recognized strict := .inl (by rw [hp]; rfl)
    obtain ⟨ports', hlast⟩ := exists_lastDefinition hdef hp
    refine ⟨exists_expand_iff_indicesFit hrecognized, ports', hlast, fun group hgroup => ?_⟩
    have hspeaks := (instanceGroup_of_expand hgroup).speaks rfl
    rwa [hp, Option.getD_some, Option.isNone_some, ports?_ofDefinitions hlast, Option.getD_some] at hspeaks
  · rename_i hnone
    split
    · rename_i hstrict
      have hunknown : ¬ d.Recognized strict := by simp [Recognized, hnone, hstrict]
      rw [expand, protocol_of_not_recognized hunknown]
      rfl
    · rename_i hlenient
      have hrecognized : d.Recognized strict := .inr (by simpa using hlenient)
      refine ⟨exists_expand_iff_indicesFit hrecognized, _, gives_ports? definitions .axi4Lite, fun group hgroup => ?_⟩
      have hspeaks := (instanceGroup_of_expand hgroup).speaks rfl
      rwa [hnone, Option.getD_none, Option.isNone_none] at hspeaks

/-- Two definitions of one protocol, and one under a name that spells no protocol. -/
def sampleDefinitions : SortedMap (List BusPort) :=
  .ofList
    [("AXI4-Lite", [⟨"AWADDR", 12, .output, .required⟩]), ("AXIL", [⟨"AWADDR", 16, .output, .required⟩]),
      ("wishbone", [⟨"DAT", 8, .output, .required⟩])]

/-- An interface of a protocol. -/
def sampleInterface (protocolType : String) : BusDeclaration :=
  { (default : BusDeclaration) with name := "b", protocolType }

theorem expand_ofDefinitions_axil :
    ("AXIL", [⟨"AWADDR", 16, .output, .required⟩]) ∈ sampleDefinitions.entries ∧
      ∃ group, (sampleInterface "AXIL").expand 0 (ofDefinitions sampleDefinitions) true = .ok group ∧
        ∀ b ∈ group, b.protocol = .axi4Lite ∧ b.isFallback = false := by
  have hdef : ("AXIL", [⟨"AWADDR", 16, .output, .required⟩]) ∈ sampleDefinitions.entries := by decide +kernel
  have h := expand_ofDefinitions sampleDefinitions (sampleInterface "AXIL") 0 true hdef
  rw [show Protocol.ofName? (sampleInterface "AXIL").protocolType = some .axi4Lite by decide +kernel] at h
  obtain ⟨hsuccess, _, -, hgroup⟩ := h
  obtain ⟨group, hok⟩ := hsuccess.2 nofun
  exact ⟨hdef, group, hok, (hgroup group hok).protocol⟩

/-- Neither a definition under an unknown name nor one before another of the same protocol is used. -/
theorem expand_ofDefinitions_unused :
    ("wishbone", [⟨"DAT", 8, .output, .required⟩]) ∈ sampleDefinitions.entries ∧
    (∃ b, (sampleInterface "wishbone").expand 0 (ofDefinitions sampleDefinitions) false = .ok [b] ∧
      b.isFallback = true ∧ b.ports.map (·.logicalName) = ["AWADDR"]) ∧
    (sampleInterface "wishbone").expand 0 (ofDefinitions sampleDefinitions) true = .error (.unknownProtocol "wishbone") ∧
    ("AXI4-Lite", [⟨"AWADDR", 12, .output, .required⟩]) ∈ sampleDefinitions.entries ∧
    ∃ b, (sampleInterface "AXI4-Lite").expand 0 (ofDefinitions sampleDefinitions) false = .ok [b] ∧
      b.ports.map (·.width) = [16] :=
  ⟨by decide +kernel, ⟨_, rfl, rfl, rfl⟩, rfl, by decide +kernel, _, rfl, rfl⟩

end BusDeclaration

end CoreForge
