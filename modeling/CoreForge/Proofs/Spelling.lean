import Mathlib.Data.List.Forall2
import CoreForge.Proofs.RoundTrip
/-!
# Numbers written natively or as texts

A number that is written as a text is worth what the native one is, in every lenient field and in
every table of widths. The width of a port differs: beyond 32 bits a text is the largest width,
while a native number is none, and so reads as 1 (`decode_spelling_iff`).
-/

namespace CoreForge

open CoreForge.Number

namespace Document

/-- The same document, or the same number written in two ways. -/
inductive SameNumber : Document → Document → Prop
  | refl (d : Document) : SameNumber d d
  | spelled {t : String} {n : UInt64} (h : ofString? t = some n) : SameNumber (.text t) (.int n.toNat)

section SameNumber
variable {d d' : Document}

theorem SameNumber.number?_eq (h : SameNumber d d') : d.number? = d'.number? := by
  cases h with
  | refl => rfl
  | spelled h =>
    rw [number?_toNat]
    exact h

theorem SameNumber.number_eq (h : SameNumber d d') : d.number = d'.number := by rw [number, number, h.number?_eq]

theorem SameNumber.number32_eq (h : SameNumber d d') : d.number32 = d'.number32 := by
  rw [number32, number32, h.number_eq]

theorem SameNumber.isScalar_eq (h : SameNumber d d') : d.isScalar = d'.isScalar := by
  cases h <;> rfl

theorem SameNumber.readTableWidth_eq (h : SameNumber d d') : d.readTableWidth = d'.readTableWidth := by
  rw [readTableWidth, readTableWidth, h.isScalar_eq, h.number?_eq]

end SameNumber

/-- Entries with the same keys, and the same values or numbers. -/
def SameEntries : List (Key × Document) → List (Key × Document) → Prop :=
  List.Forall₂ fun e e' => e.1 = e'.1 ∧ SameNumber e.2 e'.2

theorem readPairs_same {es es' : List (Key × Document)} (h : SameEntries es es') :
    readPairs readTableWidth (.object es) = readPairs readTableWidth (.object es') := by
  simp only [readPairs]
  induction h with
  | nil => rfl
  | cons hhead _ ih =>
    obtain ⟨hkey, hvalue⟩ := hhead
    simp only [List.mapM_cons, hkey, hvalue.readTableWidth_eq, ih]

end Document

open Document

/-- A table of widths does not depend on how its numbers are written. -/
theorem BusDeclaration.decodeWidths_same {es es' : List (Key × Document)} (h : SameEntries es es') :
    decodeWidths (.object es) = decodeWidths (.object es') := by
  rw [decodeWidths, decodeWidths]
  simp only [readOpt, readPairs_same h]

namespace PortWidth

theorem decode_text {t : String} {n : UInt64} (h : ofString? t = some n) :
    decode (.text t) = some (.fixed (clamp32 n.toNat)) := by
  rw [decode, ofString, h]

theorem decode_int (n : UInt64) : decode (.int n.toNat) = some (.fixed ((fit32? n.toNat).getD 1)) := by
  simp only [decode, isScalar, if_true, number?_toNat, Option.bind_some]

theorem clamp32_eq_fit32?_iff (n : Nat) : clamp32 n = (fit32? n).getD 1 ↔ n ≤ max32 := by
  unfold fit32?
  split
  · rename_i h
    simp [h]
  · rename_i h
    rw [Option.getD_none, ← UInt32.toNat_inj, toNat_clamp32, Nat.min_eq_right (Nat.le_of_not_le h)]
    exact iff_of_false (by decide) h

theorem decode_spelling_iff {t : String} {n : UInt64} (h : ofString? t = some n) :
    decode (.text t) = decode (.int n.toNat) ↔ n.toNat ≤ max32 := by
  rw [decode_text h, decode_int, Option.some.injEq, PortWidth.fixed.injEq, clamp32_eq_fit32?_iff]

end PortWidth

/-- Every lenient reader takes a number to be the same however it is written, and so does the one of
port widths, up to the largest width. -/
theorem number_spelling {t : String} {n : UInt64} (h : ofString? t = some n) :
    (Document.text t).number? = (Document.int n.toNat).number? ∧
      (Document.text t).number = (Document.int n.toNat).number ∧
      (Document.text t).number32 = (Document.int n.toNat).number32 ∧
      (∀ before before' after after' key, SameEntries before before' → SameEntries after after' →
        BusDeclaration.decodeWidths (.object (before ++ (key, .text t) :: after)) =
          BusDeclaration.decodeWidths (.object (before' ++ (key, .int n.toNat) :: after'))) ∧
      (PortWidth.decode (.text t) = PortWidth.decode (.int n.toNat) ↔ n.toNat ≤ max32) := by
  have hsame : SameNumber (.text t) (.int n.toNat) := .spelled h
  refine ⟨hsame.number?_eq, hsame.number_eq, hsame.number32_eq, ?_, PortWidth.decode_spelling_iff h⟩
  intro before before' after after' key hbefore hafter
  exact BusDeclaration.decodeWidths_same (List.rel_append hbefore (.cons ⟨rfl, hsame⟩ hafter))

theorem number_spelling_byte :
    ofString? "8'hFF" = some 255 ∧ (Document.text "8'hFF").number32 = (Document.int 255).number32 ∧
      PortWidth.decode (.text "8'hFF") = PortWidth.decode (.int 255) := by
  have hbyte : ofString? "8'hFF" = some 255 := by decide +kernel
  obtain ⟨-, -, hnumber32, -, hwidth⟩ := number_spelling hbyte
  exact ⟨hbyte, hnumber32, hwidth.2 (by decide)⟩

/-- A native number of more than 32 bits is no width. -/
theorem native_width_too_large :
    ofString? "4294967296" = some 4294967296 ∧ PortWidth.decode (.text "4294967296") = some (.fixed 4294967295) ∧
      PortWidth.decode (.int 4294967296) = some (.fixed 1) := by
  decide +kernel

end CoreForge
