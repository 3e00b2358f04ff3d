import CoreForge.Context
import CoreForge.Entity.Description
import CoreForge.Proofs.Detection
import CoreForge.Proofs.Entities
import CoreForge.Proofs.Expansion
/-!
# Members of detected buses

A member of a detected bus is named by the prefix of the bus and a suffix from the
vocabulary of its protocol, and every suffix names a port that the built-in library lists
for the protocol. The description of the entity has the bus as an interface on the side of
the slave without optional ports, so a member whose port is required comes back from
compiling it with the slave's direction: `Entity.compile_toDescription`.
-/

namespace CoreForge

open CoreForge.Text

/-! ## What a detected bus consists of -/

namespace Entity

theorem detectBus?_eq_some {ports : List PortDecl} {b : DetectedBus} (h : detectBus? ports = some b) :
    ∃ v ∈ vocabularies, ∃ stem count, b = (⟨v, stem, count⟩ : Candidate).bus ports := by
  obtain ⟨c, hc, rfl⟩ := Option.map_eq_some_iff.1 h
  obtain ⟨v, hv, hcandidate⟩ := List.mem_filterMap.1 (firstLargest_best? hc).mem
  obtain ⟨rfl, -, -⟩ := Vocabulary.leading_of_candidate? hcandidate
  exact ⟨c.vocabulary, hv, c.stem, c.count, rfl⟩

/-- A port with the role of a bus member is among the members of that bus. -/
theorem roleAmong_eq_bus {buses : List DetectedBus} {p : PortDecl} {name : String} (h : roleAmong buses p = .bus name) :
    ∃ b ∈ buses, b.name = name ∧ p.name ∈ b.members := by
  unfold roleAmong at h
  split at h
  · rename_i b hfind
    cases h
    have hmember := List.find?_some hfind
    exact ⟨b, List.mem_of_find?_eq_some hfind, rfl, by simpa using hmember⟩
  · split at h
    · split at h
      · cases h
      · split at h <;> cases h
    · cases h

theorem stem?_of_mem_members {c : Candidate} {ports : List PortDecl} {name : String} (h : name ∈ (c.bus ports).members) :
    c.vocabulary.stem? name = some c.stem := by
  obtain ⟨p, hp, rfl⟩ := List.mem_map.1 h
  simpa using (List.mem_filter.1 hp).2

end Entity

/-! ## Names in lower case -/

theorem lower_lower (s : String) : lower (lower s) = lower s := by
  simp [lower, Function.comp_def]

/-! ## Expansion with the built-in library -/

/-- The ports that the built-in library lists for a protocol. -/
def protocolPorts (protocol : String) : List BusPort :=
  ((Protocol.ofName? protocol).bind fun p => BusLibrary.builtin.ports? p.key).getD []

/-- Every vocabulary is one of a known protocol. -/
theorem isSome_protocol : ∀ v ∈ Entity.vocabularies, (Protocol.ofName? v.protocol).isSome := by
  decide +kernel

/-- Every suffix is the name of a port of the protocol, and of none of its own signals. -/
theorem exists_port_of_suffix :
    ∀ v ∈ Entity.vocabularies, ∀ s ∈ v.suffixes,
      ∃ d ∈ protocolPorts v.protocol, lower d.name = s ∧ isOwnSignal d.name = false := by
  decide +kernel

/-- A single interface of a known protocol has one instance, which is the primary one. -/
theorem BusDeclaration.expandAll_single {d : BusDeclaration} (hprotocol : (Protocol.ofName? d.protocolType).isSome)
    (harray : d.array = none) (strict : Bool) :
    ∃ i : BusInstance, expandAll [d] .builtin strict = .ok [i] ∧ i.declarationIndex = 0 ∧
      i.ports = d.resolvePorts (protocolPorts d.protocolType) d.basePrefix := by
  obtain ⟨p, hp⟩ := Option.isSome_iff_exists.1 hprotocol
  have hknown : d.protocol strict = .ok (p, false) := by rw [protocol, hp]
  have hslots : d.slots = .ok [⟨d.name, d.basePrefix, none⟩] := by rw [slots, harray]
  simp only [expandAll, expand, List.zipIdx_cons, List.zipIdx_nil, List.mapM_cons, List.mapM_nil, hknown, hslots,
    protocolPorts, hp, Option.bind_some]
  exact ⟨_, rfl, rfl, rfl⟩

namespace Entity

/-- At most one bus is detected. -/
theorem buses_of_parse {source : List Char} {detect : Bool} {e : Entity} (h : parse source detect = .ok e) :
    e.buses = [] ∨ ∃ b, e.buses = [b] ∧ ∃ v ∈ vocabularies, b.protocol = v.protocol := by
  obtain ⟨body, hclassify⟩ := ports_of_parse h
  have hbuses : e.buses = _ := congrArg Prod.snd hclassify
  cases detect with
  | false => exact .inl hbuses
  | true =>
    simp only [classify, if_true] at hbuses
    cases hdetect : detectBus? (PortDecl.readAll body) with
    | none => simp [hbuses, hdetect]
    | some b =>
      obtain ⟨v, hv, stem, count, rfl⟩ := detectBus?_eq_some hdetect
      exact .inr ⟨_, hbuses.trans (by rw [hdetect, Option.toList_some]), v, hv, rfl⟩

/-- A member of a detected bus is named by the prefix and a suffix of the vocabulary. -/
theorem member_of_parse {source : List Char} {e : Entity} (h : parse source true = .ok e) {p : ClassifiedPort}
    (hp : p ∈ e.ports) {name : String} (hrole : p.role = .bus name) :
    ∃ b ∈ e.buses, b.name = name ∧ b.mode = .slave ∧ ∃ v ∈ vocabularies, b.protocol = v.protocol ∧
      ∃ s ∈ v.suffixes, lower p.port.name = b.physicalPrefix ++ s := by
  obtain ⟨body, hclassify⟩ := ports_of_parse h
  have hports : e.ports = _ := congrArg Prod.fst hclassify
  have hbuses : e.buses = _ := congrArg Prod.snd hclassify
  simp only [classify, if_true] at hports hbuses
  rw [hports] at hp
  obtain ⟨q, -, rfl⟩ := List.mem_map.1 hp
  obtain ⟨b, hb, hname, hmember⟩ := roleAmong_eq_bus hrole
  obtain ⟨v, hv, stem, count, rfl⟩ := detectBus?_eq_some (Option.mem_toList.1 hb)
  obtain ⟨s, hs, hlower, -⟩ := Vocabulary.isStem_of_stem? (stem?_of_mem_members hmember)
  exact ⟨_, hbuses ▸ hb, hname, rfl, v, hv, rfl, s, hs, hlower⟩

/-- A description of an entity refers to nothing outside of it. -/
theorem compile_of_expandAll {e : Entity} {instances : List BusInstance} (files : Files) (directory : String)
    (options : CompileOptions)
    (h : BusDeclaration.expandAll (e.buses.map DetectedBus.declaration) .builtin options.strict = .ok instances) :
    ∃ c, (Context.compile (.new none) files e.toDescription directory options).1 = .ok c ∧
      c.description = e.toDescription ∧ c.busInstances = instances := by
  have hlibrary : (LibraryCache.new none).resolve files none = (.ok .builtin, ⟨none, some .builtin, []⟩) := rfl
  simp only [Context.compile, toDescription, Files.resolveMaps, Option.map_none, hlibrary, Context.build]
  rw [h]
  exact ⟨_, rfl, rfl, rfl⟩

/-- A required port of the protocol is among the ports of the instance, with the prefix and
on the side of the slave. -/
theorem exists_instancePort {b : DetectedBus} (hmode : b.mode = .slave) {ports : List BusPort} {d : BusPort}
    (hd : d ∈ ports) (hown : isOwnSignal d.name = false) (hpresence : d.presence = .required) :
    ∃ q ∈ b.declaration.resolvePorts ports b.physicalPrefix,
      q.name = b.physicalPrefix ++ lower d.name ∧ d.direction.Opposite q.direction := by
  have hport : b.declaration.hasPort d = true := by simp [BusDeclaration.hasPort, hown, hpresence]
  have hspec := b.declaration.portOf_instancePort b.physicalPrefix d
  exact ⟨_, List.mem_map.2 ⟨d, List.mem_filter.2 ⟨hd, hport⟩, rfl⟩, hspec.name, hspec.slave hmode⟩

/-- The description of an entity compiles, and the ports of a detected bus are those of its
instance. -/
theorem busPorts_of_compile {source : List Char} {detect : Bool} {e : Entity} (h : parse source detect = .ok e)
    (files : Files) (directory : String) (options : CompileOptions) :
    ∃ c, (Context.compile (.new none) files e.toDescription directory options).1 = .ok c ∧
      c.description = e.toDescription ∧ ∀ b ∈ e.buses,
        BusInstance.primaryPorts c.busInstances ++ BusInstance.secondaryPorts c.busInstances =
        b.declaration.resolvePorts (protocolPorts b.protocol) b.physicalPrefix := by
  rcases buses_of_parse h with hnone | ⟨b, hbuses, v, hv, hprotocol⟩
  · obtain ⟨c, hc, hdescription, -⟩ := compile_of_expandAll (e := e) files directory options (by rw [hnone]; rfl)
    exact ⟨c, hc, hdescription, by simp [hnone]⟩
  · have hknown : (Protocol.ofName? b.declaration.protocolType).isSome := by
      rw [show b.declaration.protocolType = v.protocol from hprotocol]
      exact isSome_protocol v hv
    obtain ⟨i, hexpand, hindex, hports⟩ := BusDeclaration.expandAll_single hknown rfl options.strict
    obtain ⟨c, hc, hdescription, hinstances⟩ :=
      compile_of_expandAll (e := e) files directory options (by rw [hbuses]; exact hexpand)
    refine ⟨c, hc, hdescription, ?_⟩
    rw [hbuses, List.forall_mem_singleton, hinstances, BusInstance.primaryPorts, BusInstance.secondaryPorts, if_pos hindex,
      if_pos hindex, hports]
    exact List.append_nil _

/-- A member of a detected bus stands for a port of the protocol. Where that port is required,
compiling the description gives a bus port of the same name on the side of the slave. -/
theorem compile_toDescription {source : List Char} {e : Entity} (h : parse source true = .ok e) (files : Files)
    (directory : String) (options : CompileOptions) :
    ∃ c, (Context.compile (.new none) files e.toDescription directory options).1 = .ok c ∧
      ∀ p ∈ e.ports, ∀ name, p.role = .bus name → ∃ b ∈ e.buses, b.name = name ∧
        ∃ d ∈ protocolPorts b.protocol, lower p.port.name = b.physicalPrefix ++ lower d.name ∧
          (d.presence = .required →
            ∃ q ∈ BusInstance.primaryPorts c.busInstances ++ BusInstance.secondaryPorts c.busInstances,
              sameIgnoringCase q.name p.port.name ∧ d.direction.Opposite q.direction) := by
  obtain ⟨c, hc, -, hports⟩ := busPorts_of_compile h files directory options
  refine ⟨c, hc, fun p hp name hrole => ?_⟩
  obtain ⟨b, hb, hname, hmode, v, hv, hprotocol, s, hs, hlower⟩ := member_of_parse h hp hrole
  obtain ⟨d, hd, rfl, hown⟩ := exists_port_of_suffix v hv s hs
  rw [← hprotocol] at hd
  refine ⟨b, hb, hname, d, hd, hlower, fun hpresence => ?_⟩
  obtain ⟨q, hq, hqname, hqdirection⟩ := exists_instancePort hmode hd hown hpresence
  refine ⟨q, by rwa [hports b hb], ?_, hqdirection⟩
  rw [sameIgnoringCase, beq_iff_eq, hqname, ← hlower, lower_lower]

/-- Four ports of an interface, the first one with the direction of the master, and the
second one optional. -/
def oddSource : List Char :=
  "entity e is port (s_awaddr : out bit; s_awprot : in bit; s_awvalid, s_wvalid : in bit); end e;".toList

/-- What is read of them. -/
def odd : Entity :=
  let member (name : String) (direction : Direction) : ClassifiedPort := ⟨⟨name, direction, "bit", .scalar⟩, .bus "s"⟩
  { name := "e"
    generics := []
    ports := [member "s_awaddr" .output, member "s_awprot" .input, member "s_awvalid" .input, member "s_wvalid" .input]
    buses :=
      [ { name := "s", protocol := "AXI4-Lite", mode := .slave, physicalPrefix := "s_"
          members := ["s_awaddr", "s_awprot", "s_awvalid", "s_wvalid"], signalCount := 4 } ] }

theorem parse_odd : parse oddSource true = .ok odd := by
  simp only [parse, classify, detectBus?, Vocabulary.candidate?_eq]
  decide +kernel

theorem compile_toDescription_wvalid :
    parse oddSource true = .ok odd ∧
      ∃ c, (Context.compile (.new none) .empty odd.toDescription "." ⟨false, true⟩).1 = .ok c ∧
        ∃ q ∈ BusInstance.primaryPorts c.busInstances ++ BusInstance.secondaryPorts c.busInstances,
          sameIgnoringCase q.name "s_wvalid" ∧ q.direction = .input := by
  obtain ⟨c, hc, hmembers⟩ := compile_toDescription parse_odd .empty "." ⟨false, true⟩
  obtain ⟨b, hb, -, d, hd, hname, hback⟩ := hmembers ⟨⟨"s_wvalid", .input, "bit", .scalar⟩, .bus "s"⟩ (by decide) "s" rfl
  have hside : ∀ b ∈ odd.buses, ∀ d ∈ protocolPorts b.protocol, lower "s_wvalid" = b.physicalPrefix ++ lower d.name →
      d.presence = .required ∧ d.direction = .output := by
    decide +kernel
  obtain ⟨hpresence, hdirection⟩ := hside b hb d hd hname
  obtain ⟨q, hq, hqname, hqdirection⟩ := hback hpresence
  rw [hdirection] at hqdirection
  exact ⟨parse_odd, c, hc, q, hq, hqname, Direction.opposite_iff.1 hqdirection⟩

/-- A member with the direction of the master and an optional member do not come back. -/
theorem compile_toDescription_drops :
    ∃ e c, parse oddSource true = .ok e ∧
      (Context.compile (.new none) .empty e.toDescription "." ⟨false, true⟩).1 = .ok c ∧
      ∀ name ∈ ["s_awaddr", "s_awprot"], ∃ p ∈ e.ports, p.port.name = name ∧ p.role = .bus "s" ∧
        ¬ ∃ q ∈ BusInstance.primaryPorts c.busInstances ++ BusInstance.secondaryPorts c.busInstances,
          sameIgnoringCase q.name p.port.name ∧ q.direction = p.port.direction := by
  obtain ⟨c, hc, -, hports⟩ := busPorts_of_compile parse_odd .empty "." ⟨false, true⟩
  refine ⟨odd, c, parse_odd, hc, ?_⟩
  rw [hports _ (List.mem_singleton_self _)]
  decide +kernel

end Entity

end CoreForge
