import Mathlib
import CoreForge.Entity.Role
import CoreForge.Proofs.Searching
import CoreForge.Proofs.Tallies
/-!
# Which bus is detected

What is left of a name without the longest suffix of a vocabulary is its stem. The bus among some
ports has the most frequent stem of a vocabulary (`Preferred`), its members are the ports with that
stem, and these and no others have the role of a bus member. The other inputs with such names are
clocks and resets, and all that is left are ports of their own: `classify_exact`.
-/

namespace CoreForge.Entity

open CoreForge.Text

/-! ## Stems -/

/-- The stem is the name, in lower case, without the longest suffix of the vocabulary at its end. -/
def Vocabulary.IsStem (v : Vocabulary) (name stem : String) : Prop :=
  ∃ s ∈ v.suffixes, lower name = stem ++ s ∧
    ∀ t ∈ v.suffixes, (∃ rest, lower name = rest ++ t) → t.length ≤ s.length

theorem shorter_eq (a b : List Char) : shorter a b = larger (fun cs => -(cs.length : Int)) a b := by
  unfold shorter larger
  simp

/-- What is left of a text without each of the suffixes that it ends with. -/
def remainders (suffixes : List String) (text : String) : List (List Char) :=
  suffixes.filterMap fun s => beforeEnd? s.toList text.toList

theorem mem_remainders {suffixes : List String} {text : String} {cs : List Char} :
    cs ∈ remainders suffixes text ↔ ∃ s ∈ suffixes, text = String.ofList cs ++ s := by
  have htext : ∀ s : String, text = String.ofList cs ++ s ↔ text.toList = cs ++ s.toList := by
    intro s
    rw [← String.toList_inj, String.toList_append, String.toList_ofList]
  unfold remainders
  rw [List.mem_filterMap]
  constructor
  · rintro ⟨s, hs, hbefore⟩
    exact ⟨s, hs, (htext s).2 (beforeEnd?_eq_some hbefore)⟩
  · rintro ⟨s, hs, hsplit⟩
    refine ⟨s, hs, ?_⟩
    rw [(htext s).1 hsplit]
    exact beforeEnd?_append cs s.toList

theorem Vocabulary.stem?_eq (v : Vocabulary) (name : String) :
    v.stem? name = match remainders v.suffixes (lower name) with
      | [] => none
      | cs :: rest => some (String.ofList (rest.foldl (larger fun cs => -(cs.length : Int)) cs)) := by
  have hshorter : shorter = larger fun cs => -(cs.length : Int) := by
    funext a b
    exact shorter_eq a b
  unfold stem?
  rw [hshorter]
  rfl

theorem Vocabulary.isStem_of_stem? {v : Vocabulary} {name stem : String} (h : v.stem? name = some stem) :
    v.IsStem name stem := by
  rw [stem?_eq] at h
  split at h
  · cases h
  · rename_i cs rest hfound
    cases h
    have hfirst : FirstLargest (fun cs : List Char => -(cs.length : Int)) (cs :: rest) _ := firstLargest_foldl cs rest
    rw [← hfound] at hfirst
    obtain ⟨s, hs, hsplit⟩ := mem_remainders.1 hfirst.mem
    refine ⟨s, hs, hsplit, ?_⟩
    rintro t ht ⟨other, hother⟩
    have hmem : other.toList ∈ remainders v.suffixes (lower name) :=
      mem_remainders.2 ⟨t, ht, by rw [String.ofList_toList, hother]⟩
    have hshort := hfirst.key_le _ hmem
    have hlength := congrArg String.length (hsplit.symm.trans hother)
    simp only [String.length_append, String.length_ofList] at hlength
    rw [String.length_toList] at hshort
    omega

theorem Vocabulary.IsStem.unique {v : Vocabulary} {name stem stem' : String} (h : v.IsStem name stem)
    (h' : v.IsStem name stem') : stem = stem' := by
  obtain ⟨s, hs, hsplit, hlongest⟩ := h
  obtain ⟨s', hs', hsplit', hlongest'⟩ := h'
  have hle := hlongest s' hs' ⟨stem', hsplit'⟩
  have hge := hlongest' s hs ⟨stem, hsplit⟩
  have hsame : stem.toList ++ s.toList = stem'.toList ++ s'.toList := by
    rw [← String.toList_append, ← String.toList_append, ← hsplit, hsplit']
  have hlength : s.toList.length = s'.toList.length := by
    rw [String.length_toList, String.length_toList]
    omega
  exact String.toList_inj.1 (List.append_inj_left' hsame hlength)

theorem Vocabulary.stem?_eq_some_iff {v : Vocabulary} {name stem : String} :
    v.stem? name = some stem ↔ v.IsStem name stem := by
  constructor
  · exact isStem_of_stem?
  · intro h
    cases hstem : v.stem? name with
    | some other => rw [(isStem_of_stem? hstem).unique h]
    | none =>
      obtain ⟨s, hs, hsplit, -⟩ := h
      have hmem : stem.toList ∈ remainders v.suffixes (lower name) :=
        mem_remainders.2 ⟨s, hs, by rw [String.ofList_toList, hsplit]⟩
      rw [stem?_eq] at hstem
      split at hstem
      · rename_i hnil
        rw [hnil] at hmem
        cases hmem
      · cases hstem

instance (v : Vocabulary) (name stem : String) : Decidable (v.IsStem name stem) :=
  decidable_of_iff _ Vocabulary.stem?_eq_some_iff

/-! ## Frequencies -/

/-- The number of ports with the stem. -/
def Vocabulary.frequency (v : Vocabulary) (ports : List PortDecl) (stem : String) : Nat :=
  ports.countP fun p => v.IsStem p.name stem

/-- The stems of ports, in order. -/
def Vocabulary.stems (v : Vocabulary) (ports : List PortDecl) : List String := ports.filterMap fun p => v.stem? p.name

theorem Vocabulary.count_stems (v : Vocabulary) (ports : List PortDecl) (stem : String) :
    (v.stems ports).count stem = v.frequency ports stem := by
  induction ports with
  | nil => rfl
  | cons p ps ih =>
    unfold stems frequency at ih ⊢
    rw [List.countP_cons, ← ih, List.filterMap_cons]
    cases hstem : v.stem? p.name with
    | none => simp [← stem?_eq_some_iff, hstem]
    | some other => simp [← stem?_eq_some_iff, hstem, List.count_cons]

/-- The stems of the ports with their frequencies. -/
def Vocabulary.tallied (v : Vocabulary) (ports : List PortDecl) : List (String × Nat) :=
  (ports.filterMap fun p => v.stem? p.name).foldl (fun es stem => updateEntry stem 0 (· + 1) es) []

theorem Vocabulary.toList_tally (v : Vocabulary) (ports : List PortDecl) : (v.tally ports).toList = v.tallied ports :=
  OrderedDict.toList_foldl_update OrderedDict.indexed_empty 0 (· + 1) _

theorem Vocabulary.candidate?_eq (v : Vocabulary) (ports : List PortDecl) :
    v.candidate? ports = (OrderedDict.firstMax? (v.tallied ports)).bind fun e =>
      if v.threshold ≤ e.2 then some ⟨v, e.1, e.2⟩ else none := by
  rw [candidate?, OrderedDict.maxCount?, toList_tally]
  cases OrderedDict.firstMax? (v.tallied ports) <;> rfl

theorem Vocabulary.tallied_stems (v : Vocabulary) (ports : List PortDecl) : Tallied (v.stems ports) (v.tallied ports) :=
  tallied_foldl _

/-- Some stem is frequent enough to be an interface. -/
def Vocabulary.Reached (v : Vocabulary) (ports : List PortDecl) : Prop := ∃ stem, v.threshold ≤ v.frequency ports stem

/-- The stem is frequent enough, no stem is more frequent, and those of the ports before its first one
are less frequent. -/
structure Vocabulary.Leading (v : Vocabulary) (ports : List PortDecl) (stem : String) : Prop where
  reached : v.threshold ≤ v.frequency ports stem
  largest : ∀ s, v.frequency ports s ≤ v.frequency ports stem
  first : ∃ front p back, ports = front ++ p :: back ∧ v.IsStem p.name stem ∧
    ∀ q ∈ front, ∀ s, v.IsStem q.name s → v.frequency ports s < v.frequency ports stem

theorem Vocabulary.leading_of_firstLargest {v : Vocabulary} {ports : List PortDecl} {stem : String}
    (hreached : v.threshold ≤ v.frequency ports stem)
    (h : FirstLargest (v.frequency ports) (v.stems ports) stem) : v.Leading ports stem where
  reached := hreached
  largest := by
    intro s
    by_cases hmem : s ∈ v.stems ports
    · exact h.key_le s hmem
    · rw [← count_stems, List.count_eq_zero_of_not_mem hmem]
      exact Nat.zero_le _
  first := by
    obtain ⟨before, after, hsplit, hbefore, -⟩ := h
    obtain ⟨front, rest, hports, hfront, hrest⟩ := List.filterMap_eq_append_iff.1 hsplit
    obtain ⟨skipped, p, back, rfl, hskipped, hp, -⟩ := List.filterMap_eq_cons_iff.1 hrest
    refine ⟨front ++ skipped, p, back, by rw [hports, List.append_assoc], stem?_eq_some_iff.1 hp, ?_⟩
    intro q hq s hs
    rw [← stem?_eq_some_iff] at hs
    rcases List.mem_append.1 hq with hq | hq
    · apply hbefore
      rw [← hfront]
      exact List.mem_filterMap.2 ⟨q, hq, hs⟩
    · rw [hskipped q hq] at hs
      cases hs

theorem Vocabulary.leading_of_candidate? {v : Vocabulary} {ports : List PortDecl} {c : Candidate}
    (h : v.candidate? ports = some c) :
    c.vocabulary = v ∧ c.count = v.frequency ports c.stem ∧ v.Leading ports c.stem := by
  rw [candidate?_eq, Option.bind_eq_some_iff] at h
  obtain ⟨e, hmax, h⟩ := h
  simp only [Option.ite_none_right_eq_some, Option.some.injEq] at h
  obtain ⟨hthreshold, rfl⟩ := h
  have htallied := v.tallied_stems ports
  have hlargest := OrderedDict.firstLargest_firstMax? hmax
  have hcount : e.2 = v.frequency ports e.1 := by rw [htallied.count_eq hlargest.mem, count_stems]
  have hfirst := htallied.firstLargest hlargest
  simp only [count_stems] at hfirst
  exact ⟨rfl, hcount, leading_of_firstLargest (by rwa [← hcount]) hfirst⟩

theorem Vocabulary.candidate?_eq_none_iff {v : Vocabulary} (hpos : 0 < v.threshold) {ports : List PortDecl} :
    v.candidate? ports = none ↔ ¬ v.Reached ports := by
  constructor
  · rintro h ⟨stem, hreached⟩
    have hmem : stem ∈ v.stems ports := by
      rw [← count_stems] at hreached
      exact List.count_pos_iff.1 (Nat.lt_of_lt_of_le hpos hreached)
    obtain ⟨d, hd, -, hcount⟩ := (v.tallied_stems ports).exists_entry hmem
    rw [candidate?_eq] at h
    cases hmax : OrderedDict.firstMax? (v.tallied ports) with
    | none =>
      rw [OrderedDict.firstMax?_eq_none_iff.1 hmax] at hd
      cases hd
    | some e =>
      have hle := (OrderedDict.firstLargest_firstMax? hmax).key_le d hd
      rw [hcount, count_stems] at hle
      simp [hmax, Nat.le_trans hreached hle] at h
  · intro h
    cases hcandidate : v.candidate? ports with
    | none => rfl
    | some c =>
      obtain ⟨-, -, hleading⟩ := leading_of_candidate? hcandidate
      exact absurd ⟨c.stem, hleading.reached⟩ h

/-! ## The preferred stem -/

/-- The stem is the leading one of its vocabulary, more frequent than all of the vocabularies before
that reach their thresholds, and no less frequent than those of the vocabularies behind. -/
structure Preferred (ports : List PortDecl) (v : Vocabulary) (stem : String) : Prop where
  leading : v.Leading ports stem
  best : ∃ front back, vocabularies = front ++ v :: back ∧
    (∀ w ∈ front, w.Reached ports → ∀ s, w.frequency ports s < v.frequency ports stem) ∧
    ∀ w ∈ back, w.Reached ports → ∀ s, w.frequency ports s ≤ v.frequency ports stem

theorem threshold_pos : ∀ v ∈ vocabularies, 0 < v.threshold := by decide

theorem best?_eq_none_iff {cs : List Candidate} : best? cs = none ↔ cs = [] := by
  cases cs <;> simp [best?]

theorem firstLargest_best? {cs : List Candidate} {c : Candidate} (h : best? cs = some c) :
    FirstLargest Candidate.count cs c := by
  cases cs with
  | nil => cases h
  | cons d ds =>
    cases h
    exact firstLargest_foldl d ds

theorem detectBus?_eq_none_iff (ports : List PortDecl) :
    detectBus? ports = none ↔ ∀ v ∈ vocabularies, ∀ stem, v.frequency ports stem < v.threshold := by
  rw [detectBus?, Option.map_eq_none_iff, best?_eq_none_iff, List.filterMap_eq_nil_iff]
  apply forall₂_congr
  intro v hv
  rw [Vocabulary.candidate?_eq_none_iff (threshold_pos v hv), Vocabulary.Reached, not_exists]
  simp only [Nat.not_le]

/-- A candidate of a vocabulary that reaches its threshold is at least as frequent as its stems. -/
theorem exists_candidate {ports : List PortDecl} {w : Vocabulary} (hw : w ∈ vocabularies) (h : w.Reached ports) :
    ∃ c, w.candidate? ports = some c ∧ ∀ s, w.frequency ports s ≤ c.count := by
  cases hcandidate : w.candidate? ports with
  | none => exact absurd h ((Vocabulary.candidate?_eq_none_iff (threshold_pos w hw)).1 hcandidate)
  | some c =>
    obtain ⟨-, hcount, hleading⟩ := Vocabulary.leading_of_candidate? hcandidate
    refine ⟨c, rfl, ?_⟩
    intro s
    rw [hcount]
    exact hleading.largest s

theorem preferred_of_best? {ports : List PortDecl} {c : Candidate}
    (h : best? (vocabularies.filterMap fun v => v.candidate? ports) = some c) :
    Preferred ports c.vocabulary c.stem ∧ c.count = c.vocabulary.frequency ports c.stem := by
  obtain ⟨front, back, hsplit, hfront, hback⟩ := firstLargest_best? h
  obtain ⟨before, rest, hvocabularies, hbefore, hrest⟩ := List.filterMap_eq_append_iff.1 hsplit
  obtain ⟨skipped, v, after, rfl, hskipped, hcandidate, hafter⟩ := List.filterMap_eq_cons_iff.1 hrest
  obtain ⟨hv, hcount, hleading⟩ := Vocabulary.leading_of_candidate? hcandidate
  subst hv
  refine ⟨⟨hleading, before ++ skipped, after, by rw [hvocabularies, List.append_assoc], ?_, ?_⟩, hcount⟩
  · intro w hw hreached s
    obtain ⟨d, hd, hle⟩ := exists_candidate (by rw [hvocabularies]; simp only [List.mem_append] at hw ⊢; tauto) hreached
    rcases List.mem_append.1 hw with hw | hw
    · have hmem : d ∈ front := by
        rw [← hbefore]
        exact List.mem_filterMap.2 ⟨w, hw, hd⟩
      have hlt := hfront d hmem
      have hs := hle s
      omega
    · rw [hskipped w hw] at hd
      cases hd
  · intro w hw hreached s
    obtain ⟨d, hd, hle⟩ := exists_candidate (by rw [hvocabularies]; simp [hw]) hreached
    have hmem : d ∈ back := by
      rw [← hafter]
      exact List.mem_filterMap.2 ⟨w, hw, hd⟩
    have hge := hback d hmem
    have hs := hle s
    omega

/-- The bus has the stem, and the ports with it as members. -/
structure BusOf (ports : List PortDecl) (v : Vocabulary) (stem : String) (b : DetectedBus) : Prop where
  protocol : b.protocol = v.protocol
  physicalPrefix : b.physicalPrefix = stem
  signalCount : b.signalCount = v.frequency ports stem
  members : b.members = (ports.filter fun p => v.IsStem p.name stem).map (·.name)
  length_members : b.members.length = b.signalCount

theorem exists_preferred {ports : List PortDecl} {b : DetectedBus} (h : detectBus? ports = some b) :
    ∃ v stem, Preferred ports v stem ∧ BusOf ports v stem b := by
  obtain ⟨c, hbest, rfl⟩ := Option.map_eq_some_iff.1 h
  obtain ⟨hpreferred, hcount⟩ := preferred_of_best? hbest
  have hmembers : (c.bus ports).members = (ports.filter fun p => c.vocabulary.IsStem p.name c.stem).map (·.name) := by
    simp only [Candidate.bus, ← Vocabulary.stem?_eq_some_iff]
  refine ⟨c.vocabulary, c.stem, hpreferred, rfl, rfl, hcount, hmembers, ?_⟩
  rw [hmembers, List.length_map, ← List.countP_eq_length_filter]
  exact hcount.symm

/-! ## Roles -/

/-- The name is one of the words, or ends with an underscore and one of them, in any case. -/
def Named (words : List String) (name : String) : Prop :=
  ∃ w ∈ words, lower name = w ∨ ∃ before, lower name = before ++ "_" ++ w

theorem endsWithWord_iff (words : List String) (name : String) :
    endsWithWord words (lower name).toList = true ↔ Named words name := by
  unfold endsWithWord Named
  rw [List.any_eq_true]
  refine exists_congr fun w => and_congr_right fun _ => ?_
  constructor
  · intro h
    split at h
    · rename_i before hbefore
      have hsplit := beforeEnd?_eq_some hbefore
      rw [Bool.or_eq_true, List.isEmpty_iff, decide_eq_true_eq] at h
      rcases h with rfl | hlast
      · exact .inl (String.toList_inj.1 hsplit)
      · obtain ⟨front, rfl⟩ := List.getLast?_eq_some_iff.1 hlast
        refine .inr ⟨String.ofList front, ?_⟩
        rw [← String.toList_inj, String.toList_append, String.toList_append, String.toList_ofList]
        exact hsplit
    · cases h
  · rintro (heq | ⟨before, heq⟩)
    · have hwhole : beforeEnd? w.toList w.toList = some [] := beforeEnd?_append [] w.toList
      rw [heq, hwhole]
      rfl
    · rw [heq, String.toList_append, beforeEnd?_append, String.toList_append]
      simp

theorem isClockName_iff (name : String) : isClockName name = true ↔ Named clockWords name :=
  endsWithWord_iff clockWords name

theorem isSome_resetPolarity?_iff (name : String) : (resetPolarity? name).isSome ↔ Named resetWords name := by
  rw [← endsWithWord_iff]
  unfold resetPolarity?
  simp only
  split
  · rename_i h
    simp only [h, iff_true]
    split <;> rfl
  · rename_i h
    simp [h]

/-- The port is a member of one of the buses. -/
def IsMember (buses : List DetectedBus) (p : PortDecl) : Prop := ∃ b ∈ buses, p.name ∈ b.members

/-- The right role of a port among some buses. -/
structure RoleIn (buses : List DetectedBus) (p : PortDecl) (role : Role) : Prop where
  bus : ∀ name, role = .bus name ↔ ∃ b ∈ buses, b.name = name ∧ p.name ∈ b.members
  clock : role = .clock ↔ ¬ IsMember buses p ∧ p.direction = .input ∧ Named clockWords p.name
  reset : (∃ polarity, role = .reset polarity) ↔
    ¬ IsMember buses p ∧ p.direction = .input ∧ ¬ Named clockWords p.name ∧ Named resetWords p.name
  user : (∃ name, role = .user name) ↔
    ¬ IsMember buses p ∧ ¬ (p.direction = .input ∧ (Named clockWords p.name ∨ Named resetWords p.name))

section Roles
variable {buses : List DetectedBus} {p : PortDecl}

theorem roleIn_member {b : DetectedBus} (hone : ∀ d ∈ buses, d = b) (hb : b ∈ buses) (hp : p.name ∈ b.members) :
    RoleIn buses p (.bus b.name) := by
  have hmember : IsMember buses p := ⟨b, hb, hp⟩
  constructor
  · intro name
    constructor
    · rintro ⟨⟩
      exact ⟨b, hb, rfl, hp⟩
    · rintro ⟨d, hd, rfl, -⟩
      rw [hone d hd]
  · simp [hmember]
  · simp [hmember]
  · simp [hmember]

theorem not_bus_of_not_member (h : ¬ IsMember buses p) (name : String) :
    ¬ ∃ b ∈ buses, b.name = name ∧ p.name ∈ b.members := by
  rintro ⟨b, hb, -, hp⟩
  exact h ⟨b, hb, hp⟩

/-- The role of a port that is no member of a bus. -/
theorem roleIn_other (h : ¬ IsMember buses p) : RoleIn buses p (roleAmong [] p) := by
  have hbus := not_bus_of_not_member h
  unfold roleAmong
  rw [List.find?_nil]
  simp only
  by_cases hinput : p.direction = .input
  · rw [if_pos hinput]
    by_cases hclock : isClockName p.name = true
    · rw [if_pos hclock]
      rw [isClockName_iff] at hclock
      constructor <;> simp [hbus, h, hinput, hclock]
    · rw [if_neg hclock]
      rw [isClockName_iff] at hclock
      have hreset := isSome_resetPolarity?_iff p.name
      cases hpolarity : resetPolarity? p.name with
      | some polarity =>
        have hnamed : Named resetWords p.name := hreset.1 (by rw [hpolarity]; rfl)
        constructor <;> simp [hbus, h, hinput, hclock, hnamed]
      | none =>
        have hnamed : ¬ Named resetWords p.name := by
          rw [← hreset, hpolarity]
          simp
        constructor <;> simp [hbus, h, hinput, hclock, hnamed]
  · rw [if_neg hinput]
    constructor <;> simp [hbus, h, hinput]

/-- Where there is at most one bus, the role of a port is the right one. -/
theorem roleIn_roleAmong (hone : ∀ b ∈ buses, ∀ d ∈ buses, d = b) (p : PortDecl) :
    RoleIn buses p (roleAmong buses p) := by
  cases hfind : buses.find? fun b => b.members.contains p.name with
  | some b =>
    have hb := List.mem_of_find?_eq_some hfind
    have hmember : p.name ∈ b.members := by simpa using List.find?_some hfind
    rw [roleAmong, hfind]
    exact roleIn_member (hone b hb) hb hmember
  | none =>
    have hother : ¬ IsMember buses p := by
      rintro ⟨b, hb, hp⟩
      rw [List.find?_eq_none] at hfind
      exact hfind b hb (by simpa using hp)
    have hsame : roleAmong buses p = roleAmong [] p := by rw [roleAmong, roleAmong, hfind, List.find?_nil]
    rw [hsame]
    exact roleIn_other hother

end Roles

/-- The bus that is detected is the preferred one with all its ports, none is detected only when no
stem of any vocabulary is frequent enough, and every port keeps its place and gets the right role. -/
theorem classify_exact (ports : List PortDecl) :
    (detectBus? ports = none ↔ ∀ v ∈ vocabularies, ∀ stem, v.frequency ports stem < v.threshold) ∧
    (∀ b, detectBus? ports = some b → ∃ v stem, Preferred ports v stem ∧ BusOf ports v stem b) ∧
    ∀ detect, (classify ports detect).2 = (if detect then (detectBus? ports).toList else []) ∧
      (classify ports detect).1.map (·.port) = ports ∧
      ∀ c ∈ (classify ports detect).1, RoleIn (classify ports detect).2 c.port c.role := by
  refine ⟨detectBus?_eq_none_iff ports, fun b => exists_preferred, ?_⟩
  intro detect
  refine ⟨rfl, ?_, ?_⟩
  · simp [classify, Function.comp_def]
  · intro c hc
    have hone : ∀ b ∈ (classify ports detect).2, ∀ d ∈ (classify ports detect).2, d = b := by
      unfold classify
      cases detect
      · simp
      · cases detectBus? ports <;> simp
    obtain ⟨p, -, rfl⟩ := List.mem_map.1 hc
    exact roleIn_roleAmong hone p

/-- Four ports of either vocabulary. -/
theorem classify_exact_tie :
    let ports : List PortDecl :=
      ["avs_address", "avs_read", "s_axi_awaddr", "S_AXI_AWVALID", "s_axi_wdata", "s_axi_wvalid", "avs_readdata",
        "avs_write"].map fun name => ⟨name, .input, "bit", .scalar⟩
    ∃ b, detectBus? ports = some b ∧ b.protocol = "AXI4-Lite" ∧
      ∃ v stem, Preferred ports v stem ∧ BusOf ports v stem b := by
  intro ports
  have hsome : (detectBus? ports).isSome ∧ ∀ b ∈ detectBus? ports, b.protocol = "AXI4-Lite" := by
    simp only [detectBus?, Vocabulary.candidate?_eq]
    decide +kernel
  obtain ⟨b, hb⟩ := Option.isSome_iff_exists.1 hsome.1
  exact ⟨b, hb, hsome.2 b hb, (classify_exact ports).2.1 b hb⟩

end CoreForge.Entity
