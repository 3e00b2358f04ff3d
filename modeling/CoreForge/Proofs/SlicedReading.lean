import CoreForge.Proofs.Detection
import CoreForge.Proofs.SlicedPorts
/-!
# Reading an entity by byte positions

An entity is read here with every slice that reading takes, from the comments of the source to the stems of its port
names. No slice is bad and every loop ends: for any source there is no entity, or the
entity is the one that is read by going through the characters, apart from ranges with more positions than 64 bits
count, where the number of positions is checked here and wraps there (`parse_exact`).
-/

namespace CoreForge.Entity.Sliced

open CoreForge.Text CoreForge.Number

/-! ## Names -/

/-- The name is one of the words, or ends with an underscore and one of them. -/
def endsWithWord (words : List String) (name : List Char) : Checked Bool :=
  words.anyM fun w => do
    if name = w.toList then return true
    else if w.toList.isSuffixOf name then
      let stop ← minus (byteLength name) (byteLength w.toList)
      let before ← sliceTo stop name
      return before.getLast? = some '_'
    else return false

/-- The name is that of a clock. -/
def isClockName (name : String) : Checked Bool := endsWithWord clockWords (lower name).toList

/-- The polarity of a reset by its name. -/
def resetPolarity? (name : String) : Checked (Option Polarity) := do
  let cs := (lower name).toList
  if ← endsWithWord resetWords cs then
    if cs.getLast? = some 'n' || (cut? "reset_n".toList cs).isSome || (cut? "rst_n".toList cs).isSome then
      return some .activeLow
    else return some .activeHigh
  else return none

/-- The last of the elements with the largest key. -/
def lastLargest? {α : Type} (key : α → Nat) : List α → Option α
  | [] => none
  | x :: xs => some (xs.foldl (fun best x => if key best ≤ key x then x else best) x)

/-- What is left of a name, in lower case, without the longest of the suffixes that it ends with. -/
def stem? (suffixes : List String) (name : List Char) : Checked (Option String) :=
  match lastLargest? (fun s => byteLength s.toList) (suffixes.filter fun s => s.toList.isSuffixOf name) with
  | none => return none
  | some s => do
    let stop ← minus (byteLength name) (byteLength s.toList)
    let stem ← sliceTo stop name
    return some (String.ofList stem)

theorem endsWithWord_eq (words : List String) (name : List Char) :
    endsWithWord words name = .ok (Entity.endsWithWord words name) := by
  refine anyM_ok ?_
  intro w _
  by_cases hsuffix : w.toList <:+ name
  · obtain ⟨before, rfl⟩ := hsuffix
    have htest : w.toList.isSuffixOf (before ++ w.toList) = true := by simp
    rw [htest, beforeEnd?_append]
    cases before with
    | nil => simp
    | cons c before =>
      have hne : c :: before ++ w.toList ≠ w.toList := by
        intro h
        have hlength := congrArg List.length h
        simp at hlength
        omega
      rw [if_neg hne, minus_append]
      simp only [if_true, ok_bind, sliceTo_append, pure_eq_ok, List.isEmpty_cons, Bool.false_or]
  · have htest : w.toList.isSuffixOf name = false := by
      rwa [← Bool.not_eq_true, List.isSuffixOf_iff_suffix]
    have hnone : beforeEnd? w.toList name = none := by
      rw [Option.eq_none_iff_forall_ne_some]
      intro before hbefore
      exact hsuffix ⟨before, (beforeEnd?_eq_some hbefore).symm⟩
    have hne : name ≠ w.toList := by
      rintro rfl
      exact hsuffix (List.suffix_refl _)
    rw [if_neg hne, htest, hnone]
    rfl

theorem isClockName_eq (name : String) : isClockName name = .ok (Entity.isClockName name) := endsWithWord_eq _ _

theorem resetPolarity?_eq (name : String) : resetPolarity? name = .ok (Entity.resetPolarity? name) := by
  rw [resetPolarity?, Entity.resetPolarity?, endsWithWord_eq, ok_bind]
  split
  · split <;> rfl
  · rfl

/-! ### Stems -/

/-- The element that is kept is one of those seen, and none of them has a larger key. -/
theorem foldl_lastLargest {α : Type} (key : α → Nat) (x : α) (xs : List α) :
    xs.foldl (fun best x => if key best ≤ key x then x else best) x ∈ x :: xs ∧
      ∀ y ∈ x :: xs, key y ≤ key (xs.foldl (fun best x => if key best ≤ key x then x else best) x) := by
  induction xs generalizing x with
  | nil => simp
  | cons z zs ih =>
    rw [List.foldl_cons]
    split
    · rename_i hle
      obtain ⟨hmem, hlargest⟩ := ih z
      refine ⟨List.mem_cons_of_mem x hmem, List.forall_mem_cons.2 ⟨?_, hlargest⟩⟩
      exact Nat.le_trans hle (hlargest z List.mem_cons_self)
    · rename_i hlt
      obtain ⟨hmem, hlargest⟩ := ih x
      obtain ⟨hx, hzs⟩ := List.forall_mem_cons.1 hlargest
      refine ⟨?_, List.forall_mem_cons.2 ⟨hx, List.forall_mem_cons.2 ⟨?_, hzs⟩⟩⟩
      · rcases List.mem_cons.1 hmem with heq | hmem
        · rw [heq]
          exact List.mem_cons_self
        · exact List.mem_cons_of_mem x (List.mem_cons_of_mem z hmem)
      · exact Nat.le_trans (Nat.le_of_not_le hlt) hx

theorem stem?_eq (v : Vocabulary) (name : String) : stem? v.suffixes (lower name).toList = .ok (v.stem? name) := by
  have hends : ∀ s, s ∈ v.suffixes.filter (fun s => s.toList.isSuffixOf (lower name).toList) ↔
      s ∈ v.suffixes ∧ s.toList <:+ (lower name).toList := by
    intro s
    rw [List.mem_filter, List.isSuffixOf_iff_suffix]
  unfold stem?
  cases hfilter : v.suffixes.filter fun s => s.toList.isSuffixOf (lower name).toList with
  | nil =>
    have hnone : v.stem? name = none := by
      rw [Option.eq_none_iff_forall_ne_some]
      intro stem hstem
      obtain ⟨s, hs, hsplit, -⟩ := Vocabulary.stem?_eq_some_iff.1 hstem
      have hmem := (hends s).2 ⟨hs, stem.toList, by rw [hsplit, String.toList_append]⟩
      rw [hfilter] at hmem
      cases hmem
    rw [hnone]
    rfl
  | cons s₀ ss =>
    obtain ⟨hmem, hlargest⟩ := foldl_lastLargest (fun s : String => byteLength s.toList) s₀ ss
    rw [lastLargest?]
    generalize ss.foldl _ s₀ = s at hmem hlargest
    rw [← hfilter] at hmem hlargest
    obtain ⟨hs, hsuffix⟩ := (hends s).1 hmem
    obtain ⟨stem, hstem⟩ := id hsuffix
    have hstem' : v.stem? name = some (String.ofList stem) := by
      refine Vocabulary.stem?_eq_some_iff.2 ⟨s, hs, ?_, ?_⟩
      · rw [← String.toList_inj, String.toList_append, String.toList_ofList, hstem]
      · rintro t ht ⟨rest, hrest⟩
        have hend : t.toList <:+ (lower name).toList := ⟨rest.toList, by rw [hrest, String.toList_append]⟩
        have hle := length_le_of_byteLength_le hsuffix hend (hlargest t ((hends t).2 ⟨ht, hend⟩))
        rwa [String.length_toList, String.length_toList] at hle
    rw [hstem']
    simp only [← hstem, minus_append, ok_bind, sliceTo_append, pure_eq_ok]

/-! ## Buses and roles -/

/-- The stems of the ports with their frequencies. -/
def tally (v : Vocabulary) (ports : List PortDecl) : Checked (OrderedDict String Nat) :=
  ports.foldlM (fun d p => do
    match ← stem? v.suffixes (lower p.name).toList with
    | some stem => return d.update stem 0 (· + 1)
    | none => return d) .empty

/-- The most frequent stem of a vocabulary, when it reaches the threshold. -/
def candidate? (v : Vocabulary) (ports : List PortDecl) : Checked (Option Candidate) := do
  let counts ← tally v ports
  match counts.maxCount? with
  | some (stem, count) => return if v.threshold ≤ count then some ⟨v, stem, count⟩ else none
  | none => return none

/-- The names of the ports with a stem. -/
def members (c : Candidate) (ports : List PortDecl) : Checked (List String) := do
  let names ← ports.mapM fun p => do
    let stem ← stem? c.vocabulary.suffixes (lower p.name).toList
    return if stem = some c.stem then some p.name else none
  return names.filterMap id

/-- The bus interface among the ports. -/
def detectBus? (ports : List PortDecl) : Checked (Option DetectedBus) := do
  let candidates ← vocabularies.mapM fun v => candidate? v ports
  match best? (candidates.filterMap id) with
  | none => return none
  | some c =>
    let members ← members c ports
    let name := dropTrailing (· = '_') c.stem.toList
    return some
      { name := if name.isEmpty then c.vocabulary.defaultName else String.ofList name
        protocol := c.vocabulary.protocol
        mode := .slave
        physicalPrefix := c.stem
        members
        signalCount := c.count }

/-- The role of a port among some bus interfaces. -/
def roleAmong (buses : List DetectedBus) (p : PortDecl) : Checked Role :=
  match buses.find? fun b => b.members.contains p.name with
  | some b => return .bus b.name
  | none => do
    let clock ← (if p.direction = .input then isClockName p.name else pure false)
    if clock then return .clock
    else
      let polarity ← resetPolarity? p.name
      match polarity.filter fun _ => p.direction = .input with
      | some polarity => return .reset polarity
      | none => return .user (logicalName p.name)

/-- The ports with their roles, and the bus interfaces among them. -/
def classify (ports : List PortDecl) (detect : Bool) : Checked (List ClassifiedPort × List DetectedBus) := do
  let bus ← (if detect then detectBus? ports else pure none)
  let classified ← ports.mapM fun p => do
    let role ← roleAmong bus.toList p
    return ⟨p, role⟩
  return (classified, bus.toList)

theorem tally_eq (v : Vocabulary) (ports : List PortDecl) : tally v ports = .ok (v.tally ports) := by
  unfold tally Vocabulary.tally
  generalize (OrderedDict.empty : OrderedDict String Nat) = d
  induction ports generalizing d with
  | nil => rfl
  | cons p ports ih =>
    rw [List.foldlM_cons, stem?_eq, ok_bind, List.filterMap_cons]
    cases v.stem? p.name with
    | none => exact ih d
    | some stem => exact ih (d.update stem 0 (· + 1))

theorem candidate?_eq (v : Vocabulary) (ports : List PortDecl) : candidate? v ports = .ok (v.candidate? ports) := by
  rw [candidate?, tally_eq, ok_bind, Vocabulary.candidate?]
  cases (v.tally ports).maxCount? <;> rfl

theorem members_eq (c : Candidate) (ports : List PortDecl) : members c ports = .ok (c.bus ports).members := by
  have hnames : (ports.mapM fun p => do
      let stem ← stem? c.vocabulary.suffixes (lower p.name).toList
      return if stem = some c.stem then some p.name else none) =
        .ok (ports.map fun p => if c.vocabulary.stem? p.name = some c.stem then some p.name else none) :=
    mapM_ok fun p _ => by rw [stem?_eq, ok_bind, pure_eq_ok]
  rw [members, hnames, ok_bind, pure_eq_ok, Candidate.bus]
  congr 1
  rw [List.filterMap_map, Function.id_comp, ← List.filterMap_eq_map, ← List.filterMap_eq_filter,
    List.filterMap_filterMap]
  refine List.filterMap_congr ?_
  intro p _
  by_cases hstem : c.vocabulary.stem? p.name = some c.stem <;> simp [hstem, Option.guard]

theorem detectBus?_eq (ports : List PortDecl) : detectBus? ports = .ok (Entity.detectBus? ports) := by
  have hcandidates : (vocabularies.mapM fun v => candidate? v ports) =
      .ok (vocabularies.map fun v => v.candidate? ports) :=
    mapM_ok fun v _ => candidate?_eq v ports
  rw [detectBus?, hcandidates, ok_bind, Entity.detectBus?, List.filterMap_map, Function.id_comp]
  cases best? (vocabularies.filterMap fun v => v.candidate? ports) with
  | none => rfl
  | some c =>
    simp only [members_eq, ok_bind]
    rfl

theorem roleAmong_eq (buses : List DetectedBus) (p : PortDecl) :
    roleAmong buses p = .ok (Entity.roleAmong buses p) := by
  unfold roleAmong Entity.roleAmong
  cases buses.find? fun b => b.members.contains p.name with
  | some b => rfl
  | none =>
    simp only [isClockName_eq, resetPolarity?_eq]
    by_cases hinput : p.direction = .input
    · simp only [hinput, if_true, ok_bind]
      split
      · rfl
      · cases Entity.resetPolarity? p.name <;> rfl
    · simp only [hinput, if_false]
      cases Entity.resetPolarity? p.name <;> rfl

theorem classify_eq (ports : List PortDecl) (detect : Bool) :
    classify ports detect = .ok (Entity.classify ports detect) := by
  have hbus : (if detect then detectBus? ports else pure none) =
      .ok (if detect then Entity.detectBus? ports else none) := by
    rw [detectBus?_eq]
    cases detect <;> rfl
  have hroles : ∀ buses, (ports.mapM fun p => do
      let role ← roleAmong buses p
      return (⟨p, role⟩ : ClassifiedPort)) = .ok (ports.map fun p => ⟨p, Entity.roleAmong buses p⟩) := by
    intro buses
    refine mapM_ok fun p _ => ?_
    rw [roleAmong_eq, ok_bind, pure_eq_ok]
  rw [classify, hbus, ok_bind, hroles]
  cases detect <;> rfl

/-! ## Entities -/

/-- Reads the region of a declaration. -/
def readRegion (name region : List Char) (detect : Bool) : Checked Entity := do
  let generics ← readGenerics (← clauseBody "generic".toList region)
  let ports ← readPorts (← clauseBody "port".toList region)
  let (ports, buses) ← classify ports detect
  return { name := String.ofList name, generics, ports, buses }

/-- Reads the first entity of a source text. -/
def parse (source : List Char) (detect : Bool) : Checked (Except Failure Entity) := do
  let text ← stripComments source
  match ← entityName text with
  | none => return .error .noEntity
  | some (name, start) =>
    let stop ← regionEnd (text.map Char.toLower) start
    let region ← slice start stop text
    let e ← readRegion name region detect
    return .ok e

/-- What stands behind a declared header is at the end of the text, and starts with no character of an
identifier. -/
theorem declaration?_behind {cs name rest : List Char} (h : declaration? cs = some (name, rest)) :
    rest <:+ cs ∧ isBoundary rest.head? = true := by
  obtain ⟨o, -, -, -, -, hheader⟩ := mem_words_of_declaration? h
  exact ⟨declaration?_suffix h, isBoundary_of_header? hheader⟩

/-- The entity with this name and region. -/
def entityOf (name region : List Char) (detect : Bool) : Entity :=
  let (ports, buses) := Entity.classify (PortDecl.readAll (Entity.clauseBody "port".toList region)) detect
  { name := String.ofList name
    generics := GenericDecl.readAll (Entity.clauseBody "generic".toList region)
    ports
    buses }

/-- A port of the entity has a range between 0 and the largest number of 64 bits. -/
def Overlong (e : Entity) : Prop := ∃ p ∈ e.ports, WidestRange p.port.type.toList

theorem readRegion_cases (name region : List Char) (detect : Bool) :
    ¬ Overlong (entityOf name region detect) ∧
        readRegion name region detect = .ok (entityOf name region detect) ∨
      Overlong (entityOf name region detect) ∧ readRegion name region detect = .error .overflow := by
  have hports : Overlong (entityOf name region detect) ↔
      HasWidest (PortDecl.readAll (Entity.clauseBody "port".toList region)) := by
    simp [Overlong, HasWidest, entityOf, Entity.classify]
  rw [hports, readRegion, clauseBody_eq isIdentifier_generic, ok_bind, readGenerics_eq, ok_bind,
    clauseBody_eq isIdentifier_port, ok_bind]
  rcases readPorts_cases (Entity.clauseBody "port".toList region) with ⟨hnarrow, hread⟩ | ⟨hwide, hread⟩
  · left
    rw [hread, ok_bind, classify_eq]
    exact ⟨hnarrow, rfl⟩
  · right
    rw [hread]
    exact ⟨hwide, rfl⟩

/-- Reading a source text by byte positions takes no bad slice and goes through no endless loop: there is no entity,
or an entity is read, and it is the one that is read by going through the characters. Only the
number of positions between the bounds 0 and 2⁶⁴ - 1 of a port is too large. -/
theorem parse_exact (source : List Char) (detect : Bool) :
    parse source detect = .ok (.error .noEntity) ∧ Entity.parse source detect = .error .noEntity ∨
      ∃ e, Entity.parse source detect = .ok e ∧
        (¬ Overlong e ∧ parse source detect = .ok (.ok e) ∨ Overlong e ∧ parse source detect = .error .overflow) := by
  rw [parse, stripComments_eq, ok_bind, entityName_eq, ok_bind]
  cases hdecl : declaration? (Entity.stripComments source) with
  | none =>
    left
    exact ⟨rfl, by rw [Entity.parse, hdecl]⟩
  | some found =>
    right
    obtain ⟨name, rest⟩ := found
    have hparse : Entity.parse source detect = .ok (entityOf name (region rest) detect) := by
      rw [Entity.parse, hdecl]
      rfl
    refine ⟨_, hparse, ?_⟩
    obtain ⟨⟨front, htext⟩, hboundary⟩ := declaration?_behind hdecl
    obtain ⟨after, hafter⟩ := region_prefix rest
    have hstart : byteLength (front ++ rest) - byteLength rest = byteLength front := by
      rw [byteLength_append, Nat.add_sub_cancel]
    have hslice := slice_append front (region rest) after
    rw [hafter] at hslice
    rw [← htext, Option.map_some, hstart]
    simp only [regionEnd_eq front hboundary, ok_bind, hslice]
    rcases readRegion_cases name (region rest) detect with ⟨hnarrow, hread⟩ | ⟨hwide, hread⟩
    · left
      rw [hread]
      exact ⟨hnarrow, rfl⟩
    · right
      rw [hread]
      exact ⟨hwide, rfl⟩

end CoreForge.Entity.Sliced
