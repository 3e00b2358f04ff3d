import CoreForge.Proofs.Ranges
import CoreForge.Proofs.SlicedClauses
/-!
# Generics and ports by byte positions

The entries of a clause are read here with the slices that they take. The bounds of a range are cut out of the range
at positions in its lower case. Sums are checked here, and one thing goes wrong: there are more positions from 0 to the
largest number of 64 bits than a number of 64 bits counts (`inferWidth_cases`), and so the ports are read unless one of
them has such a range (`readPorts_cases`). Without the check the width of that range is 0, and no other width is
(`inferWidth_eq_zero_iff`).
-/

namespace CoreForge.Entity.Sliced

open CoreForge.Text CoreForge.Number

/-! ## Widths -/

/-- The position and the length of the word between the bounds of a range, and whether the range is written
downward. -/
def rangeWord (text : List Char) : Checked (Option (Nat × Nat × Bool)) := do
  match ← findKeyword text "downto".toList 0 with
  | some position => return some (position, byteLength "downto".toList, true)
  | none =>
    let upward ← findKeyword text "to".toList 0
    return upward.map fun position => (position, byteLength "to".toList, false)

/-- A range: its left and right bound, and whether it is written downward. -/
def bounds? (range : List Char) : Checked (Option (List Char × List Char × Bool)) := do
  match ← rangeWord (range.map Char.toLower) with
  | none => return none
  | some (position, length, down) =>
    let left ← sliceTo position range
    let right ← sliceFrom (position + length) range
    return some (trim left, trim right, down)

/-- The number of positions from one number to another, when it is one of 64 bits. -/
def positions (l r : UInt64) : Checked Nat :=
  let n := max l.toNat r.toNat - min l.toNat r.toNat + 1
  if n ≤ max64 then .ok n else .error .overflow

/-- The width of a range with these bounds. -/
def boundsWidth? (left right : List Char) (down : Bool) : Checked (Option WidthExpr) :=
  match ofText? left, ofText? right with
  | some l, some r => do
    let n ← positions l r
    return (fit32? n).map .fixed
  | _, _ =>
    if ofText? (lowBound left right down) = some 0 then
      return (genericMinusOne? (highBound left right down)).map fun name => .generic (String.ofList name)
    else return none

/-- The width of a range. -/
def rangeWidth? (range : List Char) : Checked (Option WidthExpr) := do
  match ← bounds? range with
  | none => return none
  | some (left, right, down) => boundsWidth? left right down

/-- The width that a type says. -/
def inferWidth (type : List Char) : Checked WidthExpr :=
  match findChar? (· = '(') type with
  | none => return .scalar
  | some position => do
    let start ← sliceFrom position type
    match ← group? start with
    | some (range, rest) =>
      if trim rest = [] then
        let width ← rangeWidth? range
        return width.getD (.unresolved (String.ofList type))
      else return .unresolved (String.ofList type)
    | none => return .unresolved (String.ofList type)

/-- The type has a range between 0 and the largest number of 64 bits. -/
def WidestRange (type : List Char) : Prop := ∃ left right down, Ranged type left right down ∧ Widest left right

section Widths
variable {type range : List Char}

theorem findKeyword_start {keyword : List Char} (hk : isIdentifier keyword = true) (cs : List Char) :
    findKeyword (cs.map Char.toLower) keyword 0 =
      .ok ((findWord? keyword none cs).map fun o => byteLength o.1) := by
  have hfound := findKeyword_eq hk [] cs
  rw [findWord?, occurrences_eq_words hk]
  exact hfound

/-- What stands before and behind a word that is found are slices. -/
theorem slices_of_findWord? {keyword : List Char} (hk : isIdentifier keyword = true) {cs a b : List Char}
    (h : findWord? keyword none cs = some (a, b)) :
    sliceTo (byteLength a) cs = .ok a ∧ sliceFrom (byteLength a + byteLength keyword) cs = .ok b := by
  obtain ⟨w, rfl, hw, -, -⟩ := ((findWord?_eq_some_iff hk).1 h).wordAt
  exact ⟨sliceTo_append _ _, sliceFrom_behind hw a b⟩

theorem bounds?_eq (range : List Char) : bounds? range = .ok (Entity.bounds? range) := by
  unfold bounds? rangeWord Entity.bounds?
  rw [findKeyword_start isIdentifier_downto, findKeyword_start isIdentifier_to]
  cases hdown : findWord? "downto".toList none range with
  | some found =>
    obtain ⟨hleft, hright⟩ := slices_of_findWord? isIdentifier_downto hdown
    simp only [ok_bind, Option.map_some, pure_eq_ok, hleft, hright]
  | none =>
    cases hup : findWord? "to".toList none range with
    | none => rfl
    | some found =>
      obtain ⟨hleft, hright⟩ := slices_of_findWord? isIdentifier_to hup
      simp only [ok_bind, Option.map_some, Option.map_none, pure_eq_ok, hleft, hright]

/-- The positions between two numbers are too many for 64 bits exactly when the numbers are the smallest and the
largest. -/
theorem positions_eq (l r : UInt64) :
    positions l r =
      if l.toNat = 0 ∧ r.toNat = max64 ∨ l.toNat = max64 ∧ r.toNat = 0 then .error .overflow
      else .ok (Number.positions l r).toNat := by
  have hl := toNat_le_max64 l
  have hr := toNat_le_max64 r
  rw [toNat_positions]
  unfold positions
  simp only
  split
  · rename_i hfit
    rw [if_neg (by omega), if_neg (by omega)]
  · rename_i hlarge
    rw [if_pos (by omega)]

theorem boundsWidth?_cases (left right : List Char) (down : Bool) :
    ¬ Widest left right ∧ boundsWidth? left right down = .ok (Entity.boundsWidth? left right down) ∨
      Widest left right ∧ boundsWidth? left right down = .error .overflow := by
  unfold boundsWidth? Entity.boundsWidth? Widest
  cases hl : ofText? left with
  | none =>
    refine .inl ⟨by simp, ?_⟩
    dsimp only
    split <;> rfl
  | some l =>
    cases hr : ofText? right with
    | none =>
      refine .inl ⟨by simp, ?_⟩
      dsimp only
      split <;> rfl
    | some r =>
      simp only [Option.some.injEq, exists_and_left, exists_eq_left', positions_eq]
      split
      · rename_i hends
        exact .inr ⟨hends, rfl⟩
      · rename_i hends
        exact .inl ⟨hends, rfl⟩

theorem rangeWidth?_cases (range : List Char) :
    (¬ ∃ left right down, Entity.bounds? range = some (left, right, down) ∧ Widest left right) ∧
        rangeWidth? range = .ok (Entity.rangeWidth? range) ∨
      (∃ left right down, Entity.bounds? range = some (left, right, down) ∧ Widest left right) ∧
        rangeWidth? range = .error .overflow := by
  rw [rangeWidth?, bounds?_eq, Entity.rangeWidth?_eq, ok_bind]
  cases Entity.bounds? range with
  | none => exact .inl ⟨by simp, rfl⟩
  | some found =>
    obtain ⟨left, right, down⟩ := found
    have hcases := boundsWidth?_cases left right down
    simpa using hcases

theorem widestRange_iff {rest : List Char}
    (h : Entity.group? (type.dropWhile (· ≠ '(')) = some (range, rest)) :
    WidestRange type ↔
      trim rest = [] ∧ ∃ left right down, Entity.bounds? range = some (left, right, down) ∧ Widest left right := by
  unfold WidestRange
  simp only [ranged_iff, h, Option.some.injEq, Prod.mk.injEq]
  constructor
  · rintro ⟨left, right, down, ⟨_, _, ⟨rfl, rfl⟩, htrim, hbounds⟩, hwidest⟩
    exact ⟨htrim, left, right, down, hbounds, hwidest⟩
  · rintro ⟨htrim, left, right, down, hbounds, hwidest⟩
    exact ⟨left, right, down, ⟨range, rest, ⟨rfl, rfl⟩, htrim, hbounds⟩, hwidest⟩

theorem ne_of_not_mem {stem : List Char} (h : '(' ∉ stem) : ∀ c ∈ stem, decide (c = '(') = false := by
  intro c hc
  rw [decide_eq_false_iff_not]
  rintro rfl
  exact h hc

/-- A width is inferred unless it is the number of positions between 0 and the largest number. -/
theorem inferWidth_cases (type : List Char) :
    ¬ WidestRange type ∧ inferWidth type = .ok (Entity.inferWidth type) ∨
      WidestRange type ∧ inferWidth type = .error .overflow := by
  by_cases hparen : '(' ∈ type
  · obtain ⟨stem, start, htype, hstem⟩ := List.eq_append_cons_of_mem hparen
    have hposition : findChar? (· = '(') type = some (byteLength stem) := by
      rw [htype]
      exact findChar?_append (ne_of_not_mem hstem) rfl start
    have hslice : sliceFrom (byteLength stem) type = .ok ('(' :: start) := by rw [htype, sliceFrom_append]
    have hdrop : type.dropWhile (· ≠ '(') = '(' :: start := by rw [htype, dropWhile_stem hstem]
    simp only [inferWidth, hposition, hslice, ok_bind, group?_eq, Entity.inferWidth_eq hparen, resolved?, hdrop]
    cases hgroup : Entity.group? ('(' :: start) with
    | none =>
      left
      refine ⟨?_, rfl⟩
      rintro ⟨left, right, down, hranged, -⟩
      obtain ⟨range, rest, hsome, -⟩ := ranged_iff.1 hranged
      rw [hdrop, hgroup] at hsome
      cases hsome
    | some found =>
      obtain ⟨range, rest⟩ := found
      rw [widestRange_iff (by rw [hdrop, hgroup])]
      simp only [Option.bind_some]
      by_cases htrim : trim rest = []
      · simp only [htrim, if_true, true_and]
        rcases rangeWidth?_cases range with ⟨hnarrow, hwidth⟩ | ⟨hwide, hwidth⟩
        · rw [hwidth]
          exact .inl ⟨hnarrow, rfl⟩
        · rw [hwidth]
          exact .inr ⟨hwide, rfl⟩
      · left
        simp only [if_neg htrim]
        exact ⟨fun h => htrim h.1, rfl⟩
  · left
    have hnone : findChar? (· = '(') type = none := findChar?_plain (ne_of_not_mem hparen)
    constructor
    · rintro ⟨_, _, _, ⟨stem, range, rest, rfl, -⟩, -⟩
      simp at hparen
    · rw [inferWidth, hnone, inferWidth_of_not_mem hparen]
      rfl

/-- Without the check such a range has the width 0, which no other range has. -/
theorem inferWidth_eq_zero_iff (type : List Char) : Entity.inferWidth type = .fixed 0 ↔ WidestRange type := by
  rw [inferWidth_eq_iff]
  constructor
  · intro h
    cases h with
    | fixed hresolves =>
      obtain ⟨left, right, down, hranged, hspans⟩ := hresolves
      cases hspans with
      | fixed _ _ hcount =>
        rw [UInt32.toNat_zero] at hcount
        omega
      | widest hwidest => exact ⟨left, right, down, hranged, hwidest⟩
  · rintro ⟨left, right, down, hranged, hwidest⟩
    exact .fixed ⟨left, right, down, hranged, .widest hwidest⟩

end Widths

/-! ## Generics and ports -/

/-- The generics of a clause. -/
def readGenerics (body : List Char) : Checked (List GenericDecl) := do
  let entries ← splitTopLevel ';' body
  return entries.flatMap fun piece =>
    match entry? piece with
    | some (names, rest) =>
      let (type, default) := typeAndDefault rest
      names.map fun name => ⟨String.ofList name, String.ofList type, default.map String.ofList⟩
    | none => []

/-- The ports of an entry. -/
def readPort (piece : List Char) : Checked (List PortDecl) :=
  match entry? piece with
  | some (names, rest) =>
    match mode? rest with
    | some (direction, rest) =>
      let (type, _) := typeAndDefault rest
      if type.isEmpty then return []
      else do
        let width ← inferWidth type
        return names.map fun name => ⟨String.ofList name, direction, String.ofList type, width⟩
    | none => return []
  | none => return []

/-- The ports of a clause. -/
def readPorts (body : List Char) : Checked (List PortDecl) := do
  let entries ← splitTopLevel ';' body
  let ports ← entries.mapM readPort
  return ports.flatten

section Ports
variable {cs : List Char}

theorem readGenerics_eq (body : List Char) : readGenerics body = .ok (GenericDecl.readAll body) := by
  rw [readGenerics, splitTopLevel_eq]
  rfl

/-- What an entry declares, as ports. -/
def portsOf (piece : List Char) : List PortDecl :=
  match entry? piece with
  | some (names, rest) =>
    match mode? rest with
    | some (direction, rest) =>
      let (type, _) := typeAndDefault rest
      if type.isEmpty then []
      else names.map fun name => ⟨String.ofList name, direction, String.ofList type, Entity.inferWidth type⟩
    | none => []
  | none => []

theorem ne_nil_of_entry? {names : List (List Char)} {rest : List Char} (h : entry? cs = some (names, rest)) :
    names ≠ [] := by
  simp only [ entry?, Option.bind_eq_bind, Option.bind_eq_some_iff] at h
  obtain ⟨_, -, h⟩ := h
  split at h
  · cases h
  · rename_i hnames
    cases h
    simpa using hnames

/-- A port has the widest range. -/
def HasWidest (ps : List PortDecl) : Prop := ∃ p ∈ ps, WidestRange p.type.toList

theorem readPort_cases (piece : List Char) :
    ¬ HasWidest (portsOf piece) ∧ readPort piece = .ok (portsOf piece) ∨
      HasWidest (portsOf piece) ∧ readPort piece = .error .overflow := by
  have hnothing : ¬ HasWidest [] := by simp [HasWidest]
  unfold readPort portsOf
  cases hentry : entry? piece with
  | none => exact .inl ⟨hnothing, rfl⟩
  | some found =>
    obtain ⟨names, rest⟩ := found
    have hnames := ne_nil_of_entry? hentry
    dsimp only
    cases mode? rest with
    | none => exact .inl ⟨hnothing, rfl⟩
    | some found =>
      obtain ⟨direction, rest⟩ := found
      dsimp only
      split
      · exact .inl ⟨hnothing, rfl⟩
      · have hwidest : ∀ width, HasWidest (names.map fun name =>
            ⟨String.ofList name, direction, String.ofList (typeAndDefault rest).1, width⟩) ↔
              WidestRange (typeAndDefault rest).1 := by
          intro width
          obtain ⟨name, names, rfl⟩ := List.exists_cons_of_ne_nil hnames
          simp [HasWidest]
        rw [hwidest]
        rcases inferWidth_cases (typeAndDefault rest).1 with ⟨hnarrow, hwidth⟩ | ⟨hwide, hwidth⟩
        · rw [hwidth]
          exact .inl ⟨hnarrow, rfl⟩
        · rw [hwidth]
          exact .inr ⟨hwide, rfl⟩

/-- The ports are read unless one of them has a range between 0 and the largest number. -/
theorem readPorts_cases (body : List Char) :
    ¬ HasWidest (PortDecl.readAll body) ∧ readPorts body = .ok (PortDecl.readAll body) ∨
      HasWidest (PortDecl.readAll body) ∧ readPorts body = .error .overflow := by
  have hall : PortDecl.readAll body = (Entity.splitTopLevel ';' body).flatMap portsOf := rfl
  have hwidest : HasWidest (PortDecl.readAll body) ↔
      ∃ piece ∈ Entity.splitTopLevel ';' body, HasWidest (portsOf piece) := by
    rw [hall]
    simp only [HasWidest, List.mem_flatMap]
    constructor
    · rintro ⟨p, ⟨piece, hpiece, hp⟩, hrange⟩
      exact ⟨piece, hpiece, p, hp, hrange⟩
    · rintro ⟨piece, hpiece, p, hp, hrange⟩
      exact ⟨p, ⟨piece, hpiece, hp⟩, hrange⟩
  rw [hwidest, readPorts, splitTopLevel_eq, ok_bind]
  rcases mapM_cases fun piece (_ : piece ∈ Entity.splitTopLevel ';' body) => readPort_cases piece with
    ⟨hnone, hports⟩ | ⟨hsome, hports⟩
  · left
    rw [hports, hall, List.flatMap]
    exact ⟨fun ⟨piece, hpiece, hwide⟩ => hnone piece hpiece hwide, rfl⟩
  · right
    rw [hports]
    exact ⟨hsome, rfl⟩

end Ports

end CoreForge.Entity.Sliced
