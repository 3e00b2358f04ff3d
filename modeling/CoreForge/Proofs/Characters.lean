import Mathlib
import CoreForge.Text.Ascii
import CoreForge.Text.Blank
/-!
# Classes of characters, and trimming

The classes by their code points, so that facts about two of them are arithmetic, and what
trimming does: white space around a text is lost (`trim_pad`) and nothing else is.
-/

namespace CoreForge.Text

open List

/-! ## Classes -/

section Classes
variable {c : Char}

theorem isDigit_iff : c.isDigit = true ↔ 48 ≤ c.toNat ∧ c.toNat ≤ 57 := Char.isDigit_iff_toNat

theorem isAlpha_iff : c.isAlpha = true ↔ 65 ≤ c.toNat ∧ c.toNat ≤ 90 ∨ 97 ≤ c.toNat ∧ c.toNat ≤ 122 := by
  simp [Char.isAlpha, Char.isUpper, Char.isLower, UInt32.le_iff_toNat_le]

theorem isIdentChar_iff : isIdentChar c = true ↔ c.isAlpha = true ∨ c.isDigit = true ∨ c.toNat = 95 := by
  have hunderscore : c = '_' ↔ c.toNat = 95 := by
    rw [← Char.toNat_inj]
    rfl
  simp [isIdentChar, Char.isAlphanum, hunderscore, or_assoc]

theorem isSpace_eq_false_of_isIdentChar (h : isIdentChar c = true) : isSpace c = false := by
  rw [isIdentChar_iff, isAlpha_iff, isDigit_iff] at h
  simp only [isSpace, Bool.or_eq_false_iff, Bool.and_eq_false_iff, decide_eq_false_iff_not]
  omega

theorem isGap_eq_false_of_isSpace (h : isSpace c = false) : isGap c = false := by
  by_contra hgap
  rw [isSpace_of_isGap (by simpa using hgap)] at h
  cases h

theorem isGap_eq_false_of_isIdentChar (h : isIdentChar c = true) : isGap c = false :=
  isGap_eq_false_of_isSpace (isSpace_eq_false_of_isIdentChar h)

theorem isIdentChar_of_isGap (h : isGap c = true) : isIdentChar c = false := by
  by_contra hident
  rw [isGap_eq_false_of_isIdentChar (by simpa using hident)] at h
  cases h

theorem isIdentChar_toLower (c : Char) : isIdentChar c.toLower = isIdentChar c := by
  by_cases h : c.isUpper = true
  · have halpha : c.isAlpha = true := by simp [Char.isAlpha, h]
    simp [isIdentChar, Char.isAlphanum, halpha]
  · rw [Char.toLower_eq_of_not_isUpper h]

end Classes

/-! ## Gaps -/

theorem dropGaps_append {before : List Char} (hbefore : ∀ c ∈ before, isGap c = true) (cs : List Char) :
    dropGaps (before ++ cs) = dropGaps cs :=
  dropWhile_append_of_pos hbefore

theorem exists_gaps (cs : List Char) : ∃ gaps, cs = gaps ++ dropGaps cs ∧ ∀ c ∈ gaps, isGap c = true :=
  ⟨cs.takeWhile isGap, takeWhile_append_dropWhile.symm, fun _ => mem_takeWhile_imp⟩

theorem dropGaps_dropGaps (cs : List Char) : dropGaps (dropGaps cs) = dropGaps cs := dropWhile_idempotent isGap cs

/-! ## Trimming -/

theorem trim_eq (cs : List Char) : trim cs = (cs.dropWhile isSpace).rdropWhile isSpace := rfl

theorem dropTrailing_append {p : Char → Bool} {after : List Char} (cs : List Char) (h : ∀ c ∈ after, p c = true) :
    dropTrailing p (cs ++ after) = dropTrailing p cs := by
  rw [dropTrailing, reverse_append, dropWhile_append_of_pos fun c hc => h c (by simpa using hc)]
  rfl

/-- White space around a text is removed with that of the text. -/
theorem trim_pad {before after : List Char} (cs : List Char) (hbefore : ∀ c ∈ before, isSpace c = true)
    (hafter : ∀ c ∈ after, isSpace c = true) : trim (before ++ (cs ++ after)) = trim cs := by
  have hspaces : dropWhile isSpace after = [] := dropWhile_eq_nil_iff.2 hafter
  rw [trim, dropWhile_append_of_pos hbefore, dropWhile_append, hspaces]
  split
  · rename_i h
    rw [trim, isEmpty_iff.1 h]
  · exact dropTrailing_append _ hafter

theorem exists_pad (cs : List Char) : ∃ before after, cs = before ++ (trim cs ++ after) ∧
    (∀ c ∈ before, isSpace c = true) ∧ ∀ c ∈ after, isSpace c = true := by
  refine ⟨cs.takeWhile isSpace, (cs.dropWhile isSpace).rtakeWhile isSpace, ?_, ?_, ?_⟩
  · rw [trim_eq, rdropWhile_append_rtakeWhile, takeWhile_append_dropWhile]
  · exact fun _ => mem_takeWhile_imp
  · exact fun _ => mem_rtakeWhile_imp

/-- What is left of a text has no white space at its start. -/
theorem dropWhile_trim (cs : List Char) : (trim cs).dropWhile isSpace = trim cs := by
  rw [dropWhile_eq_self_iff]
  intro hl hspace
  have hstart : trim cs <+: cs.dropWhile isSpace := rdropWhile_prefix isSpace _
  have hne : cs.dropWhile isSpace ≠ [] := by
    intro h
    rw [h, prefix_nil] at hstart
    simp [hstart] at hl
  have hnot := head_dropWhile_not isSpace hne
  rw [head_eq_getElem, ← hstart.getElem hl, hspace] at hnot
  cases hnot

theorem trim_trim (cs : List Char) : trim (trim cs) = trim cs := by
  rw [trim_eq (trim cs), dropWhile_trim]
  exact rdropWhile_idempotent isSpace _

theorem trim_eq_self_iff {cs : List Char} :
    trim cs = cs ↔ (∀ c ∈ cs.head?, isSpace c = false) ∧ ∀ c ∈ cs.getLast?, isSpace c = false := by
  constructor
  · intro h
    have hstart : cs.dropWhile isSpace = cs := by
      rw [← h]
      exact dropWhile_trim cs
    have hend : cs.rdropWhile isSpace = cs := by rwa [trim_eq, hstart] at h
    constructor
    · intro c hc
      cases cs with
      | nil => cases hc
      | cons d ds =>
        cases hc
        exact Bool.eq_false_iff.2 (dropWhile_eq_self_iff.1 hstart (Nat.succ_pos _))
    · intro c hc
      have hne : cs ≠ [] := by
        rintro rfl
        cases hc
      rw [getLast?_eq_some_getLast hne] at hc
      cases hc
      simpa using rdropWhile_eq_self_iff.1 hend hne
  · rintro ⟨hhead, hlast⟩
    have hstart : cs.dropWhile isSpace = cs := by
      cases cs with
      | nil => rfl
      | cons c cs => rw [dropWhile_cons_of_neg (by simp [hhead c rfl])]
    rw [trim_eq, hstart, rdropWhile_eq_self_iff]
    intro hne
    simp [hlast _ (getLast?_eq_some_getLast hne)]

theorem trim_eq_nil_iff {cs : List Char} : trim cs = [] ↔ ∀ c ∈ cs, isSpace c = true := by
  rw [trim_eq, rdropWhile_eq_nil_iff, ← dropWhile_eq_nil_iff, dropWhile_idempotent, dropWhile_eq_nil_iff]

end CoreForge.Text
