import CoreForge.Entity.Basic
import CoreForge.Proofs.Characters
/-!
# What is read of an entity

Names are identifiers, types are trimmed, and the width of a port is the one of its type,
whatever the source text is: `PortDecl.mem_readAll`. An entity has the generics and the
ports of its clauses and nothing else (`parse_cases`).
-/

namespace CoreForge.Entity

open CoreForge.Text

/-! ## Identifiers -/

theorem all_isIdentChar {name : List Char} (h : isIdentifier name = true) : ∀ c ∈ name, isIdentChar c = true := by
  cases name with
  | nil => simp
  | cons c cs =>
    simp only [isIdentifier, isIdentStart, Bool.and_eq_true, Bool.or_eq_true, decide_eq_true_eq, List.all_eq_true] at h
    obtain ⟨hstart, hrest⟩ := h
    refine List.forall_mem_cons.2 ⟨?_, hrest⟩
    rcases hstart with halpha | rfl
    · exact isIdentChar_iff.2 (.inl halpha)
    · decide

theorem ne_nil_of_isIdentifier {name : List Char} (h : isIdentifier name = true) : name ≠ [] := by
  rintro rfl
  cases h

theorem trim_of_isIdentifier {name : List Char} (h : isIdentifier name = true) : trim name = name := by
  have hchars : ∀ c ∈ name, isSpace c = false := fun c hc => isSpace_eq_false_of_isIdentChar (all_isIdentChar h c hc)
  have hstart : name.dropWhile isSpace = name := by
    rw [List.dropWhile_eq_self_iff]
    intro hl hspace
    rw [hchars _ (List.getElem_mem hl)] at hspace
    cases hspace
  rw [trim_eq, hstart, List.rdropWhile_eq_self_iff]
  intro hl hspace
  rw [hchars _ (List.getLast_mem hl)] at hspace
  cases hspace

theorem isIdentifier_of_identifier? {cs name rest : List Char} (h : identifier? cs = some (name, rest)) :
    isIdentifier name = true := by
  cases cs with
  | nil => cases h
  | cons c cs =>
    simp only [identifier?, Option.ite_none_right_eq_some, Option.some.injEq, Prod.mk.injEq] at h
    obtain ⟨hstart, rfl, -⟩ := h
    simp only [isIdentifier, hstart, Bool.true_and, List.all_eq_true]
    exact fun d hd => List.mem_takeWhile_imp hd

/-! ## Generics and ports -/

theorem isIdentifier_of_mem_entry {cs rest : List Char} {names : List (List Char)} (h : entry? cs = some (names, rest)) :
    ∀ name ∈ names, isIdentifier name = true := by
  simp only [ entry?, Option.bind_eq_bind, Option.bind_eq_some_iff] at h
  obtain ⟨_, -, h⟩ := h
  split at h
  · cases h
  · cases h
    exact fun name hname => (List.mem_filter.1 hname).2

theorem trim_typeAndDefault (cs : List Char) : trim (typeAndDefault cs).1 = (typeAndDefault cs).1 := by
  unfold typeAndDefault
  split <;> exact trim_trim _

theorem GenericDecl.mem_readAll {body : List Char} {g : GenericDecl} (h : g ∈ GenericDecl.readAll body) :
    isIdentifier g.name.toList = true := by
  rw [readAll, List.mem_flatMap] at h
  obtain ⟨piece, -, hg⟩ := h
  split at hg
  · rename_i names rest hentry
    obtain ⟨name, hname, rfl⟩ := List.mem_map.1 hg
    simp only [String.toList_ofList]
    exact isIdentifier_of_mem_entry hentry name hname
  · cases hg

theorem PortDecl.mem_readAll {body : List Char} {p : PortDecl} (h : p ∈ PortDecl.readAll body) :
    isIdentifier p.name.toList = true ∧ trim p.type.toList = p.type.toList ∧ p.width = inferWidth p.type.toList := by
  rw [readAll, List.mem_flatMap] at h
  obtain ⟨piece, -, hp⟩ := h
  split at hp
  · rename_i names rest hentry
    split at hp
    · rename_i direction rest _
      dsimp only at hp
      split at hp
      · cases hp
      · obtain ⟨name, hname, rfl⟩ := List.mem_map.1 hp
        simp only [String.toList_ofList]
        exact ⟨isIdentifier_of_mem_entry hentry name hname, trim_typeAndDefault rest, trivial⟩
    · cases hp
  · cases hp

/-! ## Entities -/

deriving instance DecidableEq for Except

deriving instance DecidableEq for Entity

theorem parse_cases {source : List Char} {detect : Bool} {e : Entity} (h : parse source detect = .ok e) :
    ∃ name rest, declaration? (stripComments source) = some (name, rest) ∧
      e.name = String.ofList name ∧
      e.generics = GenericDecl.readAll (clauseBody "generic".toList (region rest)) ∧
      (e.ports, e.buses) = classify (PortDecl.readAll (clauseBody "port".toList (region rest))) detect := by
  unfold parse at h
  split at h
  · cases h
  · rename_i name rest hdecl
    cases h
    exact ⟨name, rest, hdecl, rfl, rfl, rfl⟩

theorem isIdentifier_of_mem_generics {source : List Char} {detect : Bool} {e : Entity} (h : parse source detect = .ok e)
    {g : GenericDecl} (hg : g ∈ e.generics) : isIdentifier g.name.toList = true := by
  obtain ⟨_, rest, -, -, hgenerics, -⟩ := parse_cases h
  rw [hgenerics] at hg
  exact GenericDecl.mem_readAll hg

/-- The ports of a read entity, before they are given roles, are all from one clause. -/
theorem ports_of_parse {source : List Char} {detect : Bool} {e : Entity} (h : parse source detect = .ok e) :
    ∃ body, (e.ports, e.buses) = classify (PortDecl.readAll body) detect := by
  obtain ⟨_, rest, -, -, -, hclassify⟩ := parse_cases h
  exact ⟨_, hclassify⟩

theorem mem_userPorts {source : List Char} {detect : Bool} {e : Entity} (h : parse source detect = .ok e) {p : PortDecl}
    (hp : p ∈ e.userPorts) : ∃ body, p ∈ PortDecl.readAll body := by
  obtain ⟨body, hclassify⟩ := ports_of_parse h
  have hports : e.ports = _ := congrArg Prod.fst hclassify
  simp only [userPorts, hports, classify, List.mem_filterMap, List.mem_map] at hp
  obtain ⟨_, ⟨q, hq, rfl⟩, hrole⟩ := hp
  split at hrole
  · cases hrole
    exact ⟨body, hq⟩
  · cases hrole

end CoreForge.Entity
