import CoreForge.Proofs.Keywords
import CoreForge.Proofs.Nesting
import CoreForge.Proofs.Rereading
/-!
# Ranges of declared ports

What a type says about the width of a port, apart from any way to read it: a range in the first group
of the type (`Ranged`), with two numbers for bounds or one from a generic less one to zero (`Spans`). Exactly
these are read, and a range written upward says the same as the one written downward
(`inferWidth_exact`).
-/

namespace CoreForge.Entity

open CoreForge.Text CoreForge.Number

/-! ## A generic less one -/

/-- The text is an identifier less one, with gaps anywhere. -/
def LessOne (name cs : List Char) : Prop :=
  ∃ g₁ g₂ g₃ g₄, cs = g₁ ++ (name ++ (g₂ ++ '-' :: (g₃ ++ '1' :: g₄))) ∧ isIdentifier name = true ∧
    (∀ c ∈ g₁, isGap c = true) ∧ (∀ c ∈ g₂, isGap c = true) ∧ (∀ c ∈ g₃, isGap c = true) ∧ ∀ c ∈ g₄, isGap c = true

section LessOne
variable {name cs gaps rest : List Char} {c : Char}

theorem dropGaps_eq_nil_iff : dropGaps cs = [] ↔ ∀ c ∈ cs, isGap c = true := List.dropWhile_eq_nil_iff

theorem dropGaps_cons (hgaps : ∀ c ∈ gaps, isGap c = true) (hc : isGap c = false) :
    dropGaps (gaps ++ c :: rest) = c :: rest := by
  rw [dropGaps_append hgaps, dropGaps, List.dropWhile_cons_of_neg (by simp [hc])]

theorem isBoundary_gaps (hgaps : ∀ c ∈ gaps, isGap c = true) (hc : isIdentChar c = false) :
    isBoundary (gaps ++ c :: rest).head? = true := by
  cases gaps with
  | nil => simp [isBoundary_some, hc]
  | cons g gaps => simp [isBoundary_some, isIdentChar_of_isGap (hgaps g List.mem_cons_self)]

theorem genericMinusOne?_eq_some_iff : genericMinusOne? cs = some name ↔ LessOne name cs := by
  constructor
  · intro h
    simp only [genericMinusOne?, Option.bind_eq_bind, Option.bind_eq_some_iff] at h
    obtain ⟨⟨name', r₁⟩, hname, r₂, hminus, r₃, hone, hend⟩ := h
    simp only [Option.ite_none_right_eq_some, Option.some.injEq] at hend
    obtain ⟨hgaps₄, rfl⟩ := hend
    obtain ⟨hstart, hident, -⟩ := identifier?_eq_some_iff.1 hname
    rw [afterStart?_eq_some_iff] at hminus hone
    obtain ⟨g₁, hcs, hg₁⟩ := exists_gaps cs
    obtain ⟨g₂, hr₁, hg₂⟩ := exists_gaps r₁
    obtain ⟨g₃, hr₂, hg₃⟩ := exists_gaps r₂
    rw [hcs, hstart, hr₁, hminus, hr₂, hone]
    exact ⟨g₁, g₂, g₃, r₃, by simp, hident, hg₁, hg₂, hg₃, dropGaps_eq_nil_iff.1 hgaps₄⟩
  · rintro ⟨g₁, g₂, g₃, g₄, rfl, hname, hg₁, hg₂, hg₃, hg₄⟩
    have hstart : dropGaps (g₁ ++ (name ++ (g₂ ++ '-' :: (g₃ ++ '1' :: g₄)))) =
        name ++ (g₂ ++ '-' :: (g₃ ++ '1' :: g₄)) := by
      cases name with
      | nil => cases hname
      | cons c name =>
        have hc : isIdentChar c = true := all_isIdentChar hname c List.mem_cons_self
        exact dropGaps_cons hg₁ (isGap_eq_false_of_isIdentChar hc)
    have hbehind : isBoundary (g₂ ++ '-' :: (g₃ ++ '1' :: g₄)).head? = true := isBoundary_gaps hg₂ (by decide)
    rw [genericMinusOne?, hstart, identifier?_append hname hbehind]
    simp [dropGaps_cons hg₂, dropGaps_cons hg₃, afterStart?, isGap, dropGaps_eq_nil_iff.2 hg₄]

/-- What is less one is no number. -/
theorem LessOne.ofText?_eq_none (h : LessOne name cs) : ofText? cs = none := by
  obtain ⟨g₁, g₂, g₃, g₄, rfl, -⟩ := h
  have hforeign : Foreign '-' := by
    unfold Foreign
    decide
  exact hforeign.ofText?_eq_none (by decide) (by decide) (by simp)

end LessOne

/-! ## The bounds of a range -/

/-- The two sides of the first `downto` of a range, or of its first `to` when it has no `downto`, without the white
space around them, and whether it is written downward. -/
inductive Bounded (range : List Char) : List Char → List Char → Bool → Prop
  | downward {a b} : FirstWord "downto".toList none range a b → Bounded range (trim a) (trim b) true
  | upward {a b} : (∀ a b, ¬ WordAt "downto".toList none range a b) → FirstWord "to".toList none range a b →
      Bounded range (trim a) (trim b) false

section Bounded
variable {range left right : List Char} {down : Bool}

theorem isIdentifier_downto : isIdentifier "downto".toList = true := by decide

theorem isIdentifier_to : isIdentifier "to".toList = true := by decide

theorem bounds?_eq_some_iff : bounds? range = some (left, right, down) ↔ Bounded range left right down := by
  constructor
  · intro h
    unfold bounds? at h
    split at h
    · rename_i a b hfound
      cases h
      exact .downward ((findWord?_eq_some_iff isIdentifier_downto).1 hfound)
    · rename_i hnone
      obtain ⟨⟨a, b⟩, hfound, heq⟩ := Option.map_eq_some_iff.1 h
      cases heq
      exact .upward ((findWord?_eq_none_iff isIdentifier_downto).1 hnone) ((findWord?_eq_some_iff isIdentifier_to).1 hfound)
  · intro h
    cases h with
    | downward hfirst => rw [bounds?, (findWord?_eq_some_iff isIdentifier_downto).2 hfirst]
    | upward hnone hfirst =>
      rw [bounds?, (findWord?_eq_none_iff isIdentifier_downto).2 hnone, (findWord?_eq_some_iff isIdentifier_to).2 hfirst]
      rfl

theorem findWord?_gaps {keyword gaps : List Char} (hk : isIdentifier keyword = true) (hgaps : ∀ c ∈ gaps, isGap c = true)
    (cs : List Char) :
    findWord? keyword none (gaps ++ cs) = (findWord? keyword none cs).map fun (a, b) => (gaps ++ a, b) := by
  have hchars : ∀ c ∈ gaps, isIdentChar c = false := fun c hc => isIdentChar_of_isGap (hgaps c hc)
  have hparted : Parted gaps cs := by
    left
    cases hlast : gaps.getLast? with
    | none => rfl
    | some c => simp [isBoundary_some, hchars c (List.mem_of_getLast? hlast)]
  rw [findWord?, findWord?, occurrences_eq_words hk, occurrences_eq_words hk, words_append hk hparted,
    words_of_not_isIdentChar hk hchars, List.map_nil, List.nil_append, List.head?_map]

/-- Gaps in front of a range do not matter. -/
theorem bounds?_dropGaps (range : List Char) : bounds? (dropGaps range) = bounds? range := by
  obtain ⟨gaps, hrange, hgaps⟩ := exists_gaps range
  have htrim : ∀ a, trim (gaps ++ a) = trim a := by
    intro a
    have hspaces : ∀ c ∈ gaps, isSpace c = true := fun c hc => isSpace_of_isGap (hgaps c hc)
    simpa using trim_pad a hspaces (List.forall_mem_nil _)
  conv_rhs => rw [hrange]
  unfold bounds?
  rw [findWord?_gaps isIdentifier_downto hgaps, findWord?_gaps isIdentifier_to hgaps]
  cases findWord? "downto".toList none (dropGaps range) with
  | some found => simp [htrim]
  | none => cases findWord? "to".toList none (dropGaps range) <;> simp [htrim]

end Bounded

/-! ## The range of a type -/

/-- The first parenthesis of the type opens a range between two bounds, and only white space follows the
parenthesis that closes it. -/
def Ranged (type left right : List Char) (down : Bool) : Prop :=
  ∃ stem range rest, type = stem ++ '(' :: (range ++ ')' :: rest) ∧ '(' ∉ stem ∧ Nested range ∧
    (∀ c ∈ rest, isSpace c = true) ∧ Bounded range left right down

section Ranged
variable {type left right : List Char} {down : Bool}

theorem dropWhile_stem {stem rest : List Char} (h : '(' ∉ stem) :
    (stem ++ '(' :: rest).dropWhile (· ≠ '(') = '(' :: rest := by
  have hstem : ∀ c ∈ stem, decide (c ≠ '(') = true := by
    intro c hc
    rw [decide_eq_true_eq]
    rintro rfl
    exact h hc
  rw [List.dropWhile_append_of_pos hstem, List.dropWhile_cons_of_neg (by simp)]

theorem ranged_iff : Ranged type left right down ↔ ∃ range rest,
    group? (type.dropWhile (· ≠ '(')) = some (range, rest) ∧ trim rest = [] ∧ bounds? range = some (left, right, down) := by
  constructor
  · rintro ⟨stem, range, rest, rfl, hstem, hnested, hspaces, hbounded⟩
    have hgroup : group? ('(' :: (range ++ ')' :: rest)) = some (dropGaps range, rest) :=
      group?_nested hnested (List.forall_mem_nil _) rest
    refine ⟨dropGaps range, rest, ?_, trim_eq_nil_iff.2 hspaces, ?_⟩
    · rw [dropWhile_stem hstem, hgroup]
    · rw [bounds?_dropGaps, bounds?_eq_some_iff.2 hbounded]
  · rintro ⟨range, rest, hgroup, hspaces, hbounds⟩
    obtain ⟨content, ⟨gaps, hopen, hgaps, hnested⟩, rfl⟩ := group?_eq_some_iff.1 hgroup
    rw [bounds?_dropGaps, bounds?_eq_some_iff] at hbounds
    -- The rest of the type starts with the parenthesis itself.
    cases gaps with
    | cons g gaps =>
      have hfirst := List.head?_dropWhile_not (fun c => decide (c ≠ '(')) type
      rw [hopen] at hfirst
      have hg : g = '(' := by simpa using hfirst
      have hgap := hgaps g List.mem_cons_self
      rw [hg] at hgap
      cases hgap
    | nil =>
      refine ⟨type.takeWhile (· ≠ '('), content, rest, ?_, ?_, hnested, trim_eq_nil_iff.1 hspaces, hbounds⟩
      · rw [← List.nil_append ('(' :: _), ← hopen, List.takeWhile_append_dropWhile]
      · intro hmem
        simpa using List.mem_takeWhile_imp hmem

end Ranged

/-! ## Widths -/

/-- The bound that a range starts to count at. -/
def lowBound (left right : List Char) (down : Bool) : List Char := if down then right else left

/-- The bound that a range counts up to. -/
def highBound (left right : List Char) (down : Bool) : List Char := if down then left else right

/-- The bounds are 0 and the largest number of 64 bits, in either order. -/
def Widest (left right : List Char) : Prop :=
  ∃ l r, ofText? left = some l ∧ ofText? right = some r ∧
    (l.toNat = 0 ∧ r.toNat = max64 ∨ l.toNat = max64 ∧ r.toNat = 0)

/-- The width between two bounds: the number of positions from the one to the other, or a generic when the bounds are
zero and the generic less one. Only between the widest bounds there are too many positions to count, and the count
wraps. -/
inductive Spans (left right : List Char) (down : Bool) : WidthExpr → Prop
  | fixed {l r : UInt64} {w : UInt32} : ofText? left = some l → ofText? right = some r →
      w.toNat = ((l.toNat : Int) - r.toNat).natAbs + 1 → Spans left right down (.fixed w)
  | widest : Widest left right → Spans left right down (.fixed 0)
  | generic {name : List Char} : ofText? (lowBound left right down) = some 0 →
      LessOne name (highBound left right down) → Spans left right down (.generic (String.ofList name))

/-- The width that a range with these bounds has. -/
def boundsWidth? (left right : List Char) (down : Bool) : Option WidthExpr :=
  match ofText? left, ofText? right with
  | some l, some r => (fit32? (positions l r).toNat).map .fixed
  | _, _ =>
    if ofText? (lowBound left right down) = some 0 then
      (genericMinusOne? (highBound left right down)).map fun name => .generic (String.ofList name)
    else none

section Widths
variable {left right : List Char} {down : Bool} {w : WidthExpr}

theorem fit32?_eq_some_iff {n : Nat} {w : UInt32} : fit32? n = some w ↔ w.toNat = n := by
  unfold fit32?
  constructor
  · intro h
    split at h
    · rename_i hfit
      cases h
      rw [toNat_clamp32, Nat.min_eq_left hfit]
    · cases h
  · rintro rfl
    rw [if_pos (toNat_le_max32 w), clamp32_toNat]

/-- A bound that is less one is no number, so that the two kinds of ranges exclude each other. -/
theorem boundsWidth?_eq_some_iff : boundsWidth? left right down = some w ↔ Spans left right down w := by
  constructor
  · intro h
    unfold boundsWidth? at h
    split at h
    · rename_i l r hl hr
      obtain ⟨w, hw, rfl⟩ := Option.map_eq_some_iff.1 h
      rw [fit32?_eq_some_iff, toNat_positions] at hw
      split at hw
      · rename_i hends
        rw [UInt32.toNat_inj.1 (hw.trans UInt32.toNat_zero.symm)]
        exact .widest ⟨l, r, hl, hr, hends⟩
      · exact .fixed hl hr (by omega)
    · split at h
      · rename_i hzero
        obtain ⟨name, hname, rfl⟩ := Option.map_eq_some_iff.1 h
        exact .generic hzero (genericMinusOne?_eq_some_iff.1 hname)
      · cases h
  · intro h
    cases h with
    | @fixed l r w hl hr hw =>
      have hfit := toNat_le_max32 w
      have hlt := max32_lt_max64
      have hcount : fit32? (positions l r).toNat = some w := by
        rw [fit32?_eq_some_iff, toNat_positions, if_neg (by omega)]
        omega
      simp only [boundsWidth?, hl, hr, hcount, Option.map_some]
    | widest hwidest =>
      obtain ⟨l, r, hl, hr, hends⟩ := hwidest
      have hcount : fit32? (positions l r).toNat = some 0 := by
        rw [fit32?_eq_some_iff, toNat_positions, if_pos hends, UInt32.toNat_zero]
      simp only [boundsWidth?, hl, hr, hcount, Option.map_some]
    | generic hzero hname =>
      have hnone := hname.ofText?_eq_none
      unfold boundsWidth?
      split
      · rename_i hl hr
        cases down with
        | true => exact absurd (hl.symm.trans hnone) (by simp)
        | false => exact absurd (hr.symm.trans hnone) (by simp)
      · rw [if_pos hzero, genericMinusOne?_eq_some_iff.2 hname]
        rfl

theorem rangeWidth?_eq (range : List Char) :
    rangeWidth? range = (bounds? range).bind fun (left, right, down) => boundsWidth? left right down := by
  unfold rangeWidth?
  cases bounds? range with
  | none => rfl
  | some found =>
    obtain ⟨left, right, down⟩ := found
    simp only [Option.bind_eq_bind, Option.bind_some, boundsWidth?]
    cases down <;> rfl

/-- The width of a range is that of the range with its bounds exchanged and written the other way. -/
theorem Spans.exchange (h : Spans left right down w) : Spans right left (!down) w := by
  cases h with
  | fixed hl hr hw => exact .fixed hr hl (by omega)
  | widest hwidest =>
    obtain ⟨l, r, hl, hr, hends⟩ := hwidest
    exact .widest ⟨r, l, hr, hl, by omega⟩
  | generic hzero hname =>
    refine .generic ?_ ?_
    · cases down <;> exact hzero
    · cases down <;> exact hname

end Widths

/-- The range of the type has the width. -/
def Resolves (type : List Char) (w : WidthExpr) : Prop :=
  ∃ left right down, Ranged type left right down ∧ Spans left right down w

/-- The width that a type says, in four cases. -/
inductive WidthOf (type : List Char) : WidthExpr → Prop
  | scalar : '(' ∉ type → WidthOf type .scalar
  | fixed {bits : UInt32} : Resolves type (.fixed bits) → WidthOf type (.fixed bits)
  | generic {name : String} : Resolves type (.generic name) → WidthOf type (.generic name)
  | unresolved : '(' ∈ type → (∀ w, ¬ Resolves type w) → WidthOf type (.unresolved (String.ofList type))

section WidthOf
variable {type left right : List Char} {down : Bool} {w : WidthExpr}

theorem Resolves.mem (h : Resolves type w) : '(' ∈ type := by
  obtain ⟨_, _, _, ⟨stem, range, rest, rfl, -⟩, -⟩ := h
  simp

/-- The width of the range of a type. -/
def resolved? (type : List Char) : Option WidthExpr :=
  (group? (type.dropWhile (· ≠ '('))).bind fun (range, rest) => if trim rest = [] then rangeWidth? range else none

theorem resolved?_eq_some_iff : resolved? type = some w ↔ Resolves type w := by
  simp only [resolved?, Option.bind_eq_some_iff, Option.ite_none_right_eq_some, rangeWidth?_eq, boundsWidth?_eq_some_iff,
    Prod.exists, Resolves, ranged_iff]
  constructor
  · rintro ⟨range, rest, hgroup, hspaces, left, right, down, hbounds, hspans⟩
    exact ⟨left, right, down, ⟨range, rest, hgroup, hspaces, hbounds⟩, hspans⟩
  · rintro ⟨left, right, down, ⟨range, rest, hgroup, hspaces, hbounds⟩, hspans⟩
    exact ⟨range, rest, hgroup, hspaces, left, right, down, hbounds, hspans⟩

theorem inferWidth_eq (h : '(' ∈ type) : inferWidth type = (resolved? type).getD (.unresolved (String.ofList type)) := by
  rw [inferWidth, if_pos (by simpa using h), resolved?]
  cases group? (type.dropWhile (· ≠ '(')) with
  | none => rfl
  | some found =>
    simp only [Option.bind_some]
    split <;> rfl

theorem Resolves.inferWidth_eq (h : Resolves type w) : inferWidth type = w := by
  rw [Entity.inferWidth_eq h.mem, resolved?_eq_some_iff.2 h, Option.getD_some]

theorem inferWidth_of_not_resolves (hparen : '(' ∈ type) (h : ∀ w, ¬ Resolves type w) :
    inferWidth type = .unresolved (String.ofList type) := by
  have hnone : resolved? type = none := by
    rw [Option.eq_none_iff_forall_ne_some]
    intro w hw
    exact h w (resolved?_eq_some_iff.1 hw)
  rw [inferWidth_eq hparen, hnone, Option.getD_none]

theorem inferWidth_of_not_mem (h : '(' ∉ type) : inferWidth type = .scalar := by
  rw [inferWidth, if_neg (by simpa using h)]

theorem widthOf_inferWidth (type : List Char) : WidthOf type (inferWidth type) := by
  by_cases hparen : '(' ∈ type
  · by_cases hresolves : ∃ w, Resolves type w
    · obtain ⟨w, hw⟩ := hresolves
      rw [hw.inferWidth_eq]
      obtain ⟨left, right, down, -, hspans⟩ := id hw
      cases hspans with
      | fixed => exact .fixed hw
      | widest => exact .fixed hw
      | generic => exact .generic hw
    · have hnone := not_exists.1 hresolves
      rw [inferWidth_of_not_resolves hparen hnone]
      exact .unresolved hparen hnone
  · rw [inferWidth_of_not_mem hparen]
    exact .scalar hparen

theorem inferWidth_eq_iff : inferWidth type = w ↔ WidthOf type w := by
  constructor
  · rintro rfl
    exact widthOf_inferWidth type
  · intro h
    cases h with
    | scalar hparen => exact inferWidth_of_not_mem hparen
    | fixed hw => exact hw.inferWidth_eq
    | generic hw => exact hw.inferWidth_eq
    | unresolved hparen hnone => exact inferWidth_of_not_resolves hparen hnone

/-- A type says exactly one width: one bit without parentheses, that of its range, and otherwise none, with its text
kept. Types with the same bounds, one written upward and one downward, say the same. -/
theorem inferWidth_exact (type : List Char) :
    (∀ w, inferWidth type = w ↔ WidthOf type w) ∧
      ∀ type' left right down w, Ranged type left right down → Ranged type' right left (!down) →
        Spans left right down w → inferWidth type = w ∧ inferWidth type' = w := by
  refine ⟨fun w => inferWidth_eq_iff, ?_⟩
  intro type' left right down w hranged hranged' hspans
  have hresolves : Resolves type w := ⟨left, right, down, hranged, hspans⟩
  have hresolves' : Resolves type' w := ⟨right, left, !down, hranged', hspans.exchange⟩
  exact ⟨hresolves.inferWidth_eq, hresolves'.inferWidth_eq⟩

/-- A keyword in capitals, and gaps around it. -/
example : inferWidth "bits ( N -1\tDOWNTO 0 ) ".toList = .generic "N" := by decide

/-- More positions than a width can count. -/
example : inferWidth "bits(0 to 4294967295)".toList = .unresolved "bits(0 to 4294967295)" := by decide

/-- More positions than a word can count. -/
example : inferWidth "bits(0 to 0xFFFFFFFFFFFFFFFF)".toList = .fixed 0 := by decide

end WidthOf

end CoreForge.Entity
