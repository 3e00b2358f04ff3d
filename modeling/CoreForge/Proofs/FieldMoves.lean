import CoreForge.Memory.Field
import CoreForge.Proofs.BitNotation
/-!
# Moving a field

Up to three attributes of a field say where it is, and each of them may be missing, unreadable
or at odds with the others. `FieldDecl.setOffset_cases` says what a move writes: the bit range
alone where the field has no offset of its own, and else both numbers, with the bit range as
well if there is one. Either way the attribute that is read first says the new place:
`FieldDecl.setOffset_moves`.
-/

namespace CoreForge

open CoreForge.Number

namespace FieldDecl
variable {f : FieldDecl} {o : UInt32}

/-! ## What the attributes say -/

theorem span_of_numbers {offset width : UInt64} (hoffset : f.bitOffset = some offset)
    (hwidth : f.bitWidth = some width) : f.span = ⟨clamp32 offset.toNat, clamp32 width.toNat⟩ := by
  rw [span, hoffset, hwidth]

/-- Without an offset a readable bit range says it all, whatever the width is said to be. -/
theorem span_of_bits {text : String} {s : BitSpan} (hoffset : f.bitOffset = none) (hbits : f.bits = some text)
    (hread : BitSpan.ofString? text = some s) : f.span = s := by
  unfold span
  rw [hoffset, hbits, Option.bind_some, hread]
  rfl

/-! ## What a move writes -/

/-- The bit range after a move: that of the new place, where there was one before. -/
def movedBits (f : FieldDecl) (o : UInt32) : Option String := f.bits.map fun _ => (BitSpan.mk o f.span.width).render

/-- A move writes the bit range of a field without an offset, and otherwise both numbers and
the bit range there is. -/
theorem setOffset_cases (f : FieldDecl) (o : UInt32) :
    f.bits.isSome ∧ f.bitOffset = none ∧ f.setOffset o = { f with bits := f.movedBits o } ∨
    (f.bits = none ∨ f.bitOffset.isSome) ∧ f.setOffset o =
      { f with
        bits := f.movedBits o
        bitOffset := some (clamp64 o.toNat)
        bitWidth := some (clamp64 f.span.width.toNat) } := by
  unfold setOffset
  simp only
  split
  · rename_i h
    exact .inl ⟨h.1, Option.isNone_iff_eq_none.1 h.2, rfl⟩
  · rename_i h
    refine .inr ⟨?_, rfl⟩
    rw [not_and_or, Option.not_isSome_iff_eq_none, Option.isNone_iff_eq_none, ← ne_eq, Option.ne_none_iff_isSome] at h
    exact h

theorem bits_setOffset (f : FieldDecl) (o : UInt32) : (f.setOffset o).bits = f.movedBits o := by
  rcases f.setOffset_cases o with ⟨-, -, h⟩ | ⟨-, h⟩
  · rw [h]
  · rw [h]

theorem bitOffset_setOffset (hbits : f.bits.isSome) (hoffset : f.bitOffset = none) :
    (f.setOffset o).bitOffset = none := by
  rcases f.setOffset_cases o with ⟨-, -, h⟩ | ⟨hcase, -⟩
  · rw [h]
    exact hoffset
  · rcases hcase with hnone | hsome
    · rw [hnone] at hbits
      cases hbits
    · rw [hoffset] at hsome
      cases hsome

/-- What is not about the place of the field stays. -/
theorem attributes_setOffset (f : FieldDecl) (o : UInt32) : (f.setOffset o).name = f.name ∧
    (f.setOffset o).access = f.access ∧ (f.setOffset o).resetValue = f.resetValue ∧
    (f.setOffset o).description = f.description := by
  rcases f.setOffset_cases o with ⟨-, -, h⟩ | ⟨-, h⟩
  · rw [h]
    exact ⟨rfl, rfl, rfl, rfl⟩
  · rw [h]
    exact ⟨rfl, rfl, rfl, rfl⟩

/-! ## The new place -/

section Fitting
variable (hw : 0 < f.span.width.toNat) (hfit : o.toNat + f.span.width.toNat ≤ max32 + 1)
include hw hfit

/-- The bit range after a move reads as the new place by itself. -/
theorem exists_movedBits (hbits : f.bits.isSome) :
    ∃ text, f.movedBits o = some text ∧ BitSpan.ofString? text = some ⟨o, f.span.width⟩ := by
  obtain ⟨old, hold⟩ := Option.isSome_iff_exists.1 hbits
  refine ⟨_, ?_, BitSpan.ofString?_render hw hfit⟩
  rw [movedBits, hold, Option.map_some]

/-- A moved field has its new offset and its old width, however its place is written. -/
theorem span_setOffset : (f.setOffset o).span = ⟨o, f.span.width⟩ := by
  rcases f.setOffset_cases o with ⟨hbits, hoffset, h⟩ | ⟨-, h⟩
  · obtain ⟨text, htext, hread⟩ := exists_movedBits hw hfit hbits
    rw [h]
    exact span_of_bits hoffset htext hread
  · rw [h, span_of_numbers rfl rfl, clamp32_clamp64, clamp32_clamp64]

end Fitting

/-- A field with at least one bit that is moved to where all its bits have 32-bit positions is
found there, with its old width. A bit range it has says so by itself, attributes that it lacks
are not added to a bit range, and the field is otherwise the same. -/
theorem setOffset_moves (hw : 1 ≤ f.span.width.toNat) (hfit : o.toNat + f.span.width.toNat - 1 ≤ 2 ^ 32 - 1) :
    (f.setOffset o).span = ⟨o, f.span.width⟩ ∧
      (f.bits.isSome → ∃ text, (f.setOffset o).bits = some text ∧
        BitSpan.ofString? text = some ⟨o, f.span.width⟩) ∧
      (f.bits.isSome → f.bitOffset = none → (f.setOffset o).bitOffset = none) ∧
      (f.bits = none → (f.setOffset o).bits = none) ∧
      (f.setOffset o).name = f.name ∧ (f.setOffset o).access = f.access ∧
      (f.setOffset o).resetValue = f.resetValue ∧ (f.setOffset o).description = f.description := by
  have h32 : max32 = 2 ^ 32 - 1 := rfl
  have hfit' : o.toNat + f.span.width.toNat ≤ max32 + 1 := by omega
  refine ⟨span_setOffset hw hfit', ?_, bitOffset_setOffset, ?_, attributes_setOffset f o⟩
  · intro hbits
    rw [bits_setOffset]
    exact exists_movedBits hw hfit' hbits
  · intro hbits
    rw [bits_setOffset, movedBits, hbits, Option.map_none]

/-- A field whose bit range cannot be read, and one with three attributes that contradict each
other. Only the width of the first and the numbers of the second count. -/
theorem setOffset_moves_contradictory :
    let unread : FieldDecl := { ofSpan "mode" 0 3 with bits := some "oops", bitOffset := none }
    let torn : FieldDecl := { ofSpan "code" 4 8 with bits := some "[1:0]", access := some "read-only" }
    (unread.span = ⟨0, 3⟩ ∧ (unread.setOffset 8).span = ⟨8, 3⟩ ∧ (unread.setOffset 8).bits = some "[10:8]" ∧
      (unread.setOffset 8).bitOffset = none) ∧
    (torn.span = ⟨4, 8⟩ ∧ (torn.setOffset 16).span = ⟨16, 8⟩ ∧ (torn.setOffset 16).bits = some "[23:16]" ∧
      (torn.setOffset 16).access = some "read-only") := by
  intro unread torn
  have hunread : unread.span = ⟨0, 3⟩ := by cbv
  have htorn : torn.span = ⟨4, 8⟩ := rfl
  obtain ⟨hspan, -, hoffset, -⟩ :=
    setOffset_moves (f := unread) (o := 8) (by rw [hunread]; decide) (by rw [hunread]; decide)
  obtain ⟨hspan', -, -, -, -, haccess, -⟩ :=
    setOffset_moves (f := torn) (o := 16) (by rw [htorn]; decide) (by rw [htorn]; decide)
  rw [hunread] at hspan
  rw [htorn] at hspan'
  exact ⟨⟨hunread, hspan, by cbv, hoffset rfl rfl⟩, htorn, hspan', by cbv, haccess⟩

end FieldDecl

end CoreForge
