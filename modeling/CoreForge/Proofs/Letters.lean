import CoreForge.Number.Literal
import CoreForge.Proofs.Characters
import CoreForge.Proofs.Comments
/-!
# Texts in lower case

Taking a text apart looks at its characters through classes that both cases of a letter
share, compares them with marks that are no letters, or asks for a keyword in any case. So
each part of the text in lower case is the part of the text, in lower case, and a number is
the same in either case (`ofText?_lower`).
-/

namespace CoreForge.Text

/-! ## Characters -/

/-- What agrees on every capital letter and its small letter agrees on every character. -/
theorem apply_toLower {α : Type} {f : Char → α}
    (h : ∀ n < 26, f (Char.ofNat (65 + n)).toLower = f (Char.ofNat (65 + n))) (c : Char) : f c.toLower = f c := by
  by_cases hc : c.isUpper = true
  · have hrange : 65 ≤ c.toNat ∧ c.toNat ≤ 90 := by
      simpa [Char.isUpper, UInt32.le_iff_toNat_le] using hc
    have hcode := h (c.toNat - 65) (by omega)
    rwa [Nat.add_sub_cancel' hrange.1, Char.ofNat_toNat] at hcode
  · rw [Char.toLower_eq_of_not_isUpper hc]

theorem isDigit_toLower : Char.isDigit ∘ Char.toLower = Char.isDigit := funext (apply_toLower (by decide))

theorem isSpace_toLower : isSpace ∘ Char.toLower = isSpace := funext (apply_toLower (by decide))

theorem isGap_toLower : isGap ∘ Char.toLower = isGap := funext (apply_toLower (by decide))

theorem isIdentStart_toLower : isIdentStart ∘ Char.toLower = isIdentStart := funext (apply_toLower (by decide))

theorem isIdentChar_comp_toLower : isIdentChar ∘ Char.toLower = isIdentChar := funext isIdentChar_toLower

/-- A character that is no letter has no other case. -/
theorem toLower_eq_iff {c p : Char} (hp : p.isAlpha = false) : c.toLower = p ↔ c = p := by
  constructor
  · rintro rfl
    rw [Char.isAlpha_toLower_eq_isAlpha] at hp
    refine (Char.toLower_eq_of_not_isUpper fun hupper => ?_).symm
    simp [Char.isAlpha, hupper] at hp
  · rintro rfl
    refine Char.toLower_eq_of_not_isUpper fun hupper => ?_
    simp [Char.isAlpha, hupper] at hp

/-! ## Texts -/

/-- Two parts of a text, both in lower case. -/
def lowerBoth (p : List Char × List Char) : List Char × List Char := (p.1.map Char.toLower, p.2.map Char.toLower)

section Texts
variable {pattern : List Char}

theorem dropGaps_lower (cs : List Char) : dropGaps (cs.map Char.toLower) = (dropGaps cs).map Char.toLower := by
  unfold dropGaps
  rw [List.dropWhile_map, isGap_toLower]

theorem dropGaps1?_lower (cs : List Char) :
    dropGaps1? (cs.map Char.toLower) = (dropGaps1? cs).map (List.map Char.toLower) := by
  cases cs with
  | nil => rfl
  | cons c cs =>
    have hgap : isGap c.toLower = isGap c := congrFun isGap_toLower c
    simp only [List.map_cons, dropGaps1?, hgap, dropGaps_lower]
    split <;> rfl

theorem dropTrailing_lower {p : Char → Bool} (hp : p ∘ Char.toLower = p) (cs : List Char) :
    dropTrailing p (cs.map Char.toLower) = (dropTrailing p cs).map Char.toLower := by
  unfold dropTrailing
  rw [← List.map_reverse, List.dropWhile_map, hp, List.map_reverse]

theorem trim_lower (cs : List Char) : trim (cs.map Char.toLower) = (trim cs).map Char.toLower := by
  unfold trim
  rw [List.dropWhile_map, isSpace_toLower, dropTrailing_lower isSpace_toLower]

theorem isIdentifier_lower (cs : List Char) : isIdentifier (cs.map Char.toLower) = isIdentifier cs := by
  cases cs with
  | nil => rfl
  | cons c cs =>
    have hstart : isIdentStart c.toLower = isIdentStart c := congrFun isIdentStart_toLower c
    simp only [List.map_cons, isIdentifier, hstart, List.all_map, isIdentChar_comp_toLower]

theorem identifier?_lower (cs : List Char) : identifier? (cs.map Char.toLower) = (identifier? cs).map lowerBoth := by
  cases cs with
  | nil => rfl
  | cons c cs =>
    have hstart : isIdentStart c.toLower = isIdentStart c := congrFun isIdentStart_toLower c
    simp only [List.map_cons, identifier?, hstart, List.takeWhile_map, List.dropWhile_map, isIdentChar_comp_toLower]
    split <;> rfl

theorem afterStart?_lower (hp : ∀ p ∈ pattern, p.isAlpha = false) (cs : List Char) :
    afterStart? pattern (cs.map Char.toLower) = (afterStart? pattern cs).map (List.map Char.toLower) := by
  induction pattern generalizing cs with
  | nil => rfl
  | cons p ps ih =>
    obtain ⟨hp, hps⟩ := List.forall_mem_cons.1 hp
    cases cs with
    | nil => rfl
    | cons c cs =>
      simp only [List.map_cons, afterStart?, toLower_eq_iff hp, ih hps]
      split <;> rfl

theorem afterWord?_lower (word cs : List Char) :
    afterWord? word (cs.map Char.toLower) = (afterWord? word cs).map (List.map Char.toLower) := by
  induction word generalizing cs with
  | nil => rfl
  | cons p ps ih =>
    cases cs with
    | nil => rfl
    | cons c cs =>
      simp only [List.map_cons, afterWord?, Char.toLower_toLower_eq_toLower, ih]
      split <;> rfl

theorem cut?_lower (hp : ∀ p ∈ pattern, p.isAlpha = false) (cs : List Char) :
    cut? pattern (cs.map Char.toLower) = (cut? pattern cs).map lowerBoth := by
  induction cs with
  | nil =>
    simp only [List.map_nil, cut?]
    split <;> rfl
  | cons c cs ih =>
    rw [List.map_cons, cut?, cut?, ← List.map_cons, afterStart?_lower hp, ih]
    cases afterStart? pattern (c :: cs) with
    | some rest => rfl
    | none =>
      cases cut? pattern cs <;> rfl

theorem pieces_lower {sep : Char} (hsep : sep.isAlpha = false) (cs : List Char) :
    pieces sep (cs.map Char.toLower) = (pieces sep cs).map (List.map Char.toLower) := by
  induction cs with
  | nil => rfl
  | cons c cs ih =>
    simp only [List.map_cons, pieces, toLower_eq_iff hsep, ih]
    split
    · rfl
    · cases pieces sep cs <;> rfl

theorem lines_lower (cs : List Char) : lines (cs.map Char.toLower) = (lines cs).map (List.map Char.toLower) := by
  fun_induction lines cs with
  | case1 => rfl
  | case2 cs ih => exact congrArg (List.cons []) ih
  | case3 cs ih => exact congrArg (List.cons []) ih
  | case4 c hc =>
    have hfeed : c.toLower ≠ '\n' := by rwa [Ne, toLower_eq_iff rfl]
    exact Entity.lines_cons hfeed (by simp)
  | case5 c d cs _ _ hnil => exact absurd hnil Entity.lines_ne_nil
  | case6 c d cs hbreak hfeed l ls hlines ih =>
    have hfeed' : c.toLower ≠ '\n' := by rwa [Ne, toLower_eq_iff rfl]
    have hbreak' : c.toLower = '\r' → ((d :: cs).map Char.toLower).head? ≠ some '\n' := by
      simpa [toLower_eq_iff] using hbreak
    rw [List.map_cons, Entity.lines_cons hfeed' hbreak', ih, hlines]
    rfl

theorem unlines_lower (ls : List (List Char)) :
    unlines (ls.map (List.map Char.toLower)) = (unlines ls).map Char.toLower := by
  fun_induction unlines ls <;> simp_all [unlines]

end Texts
end CoreForge.Text

namespace CoreForge.Number

open CoreForge.Text

/-! ## Numbers -/

theorem digitValue?_toLower (c : Char) : digitValue? c.toLower = digitValue? c := apply_toLower (by decide) c

theorem isHexDigit_toLower : isHexDigit ∘ Char.toLower = isHexDigit := funext (apply_toLower (by decide))

theorem isBinDigit_toLower : isBinDigit ∘ Char.toLower = isBinDigit := funext (apply_toLower (by decide))

theorem isOctDigit_toLower : isOctDigit ∘ Char.toLower = isOctDigit := funext (apply_toLower (by decide))

theorem digitsValueFrom_lower (base n : Nat) (cs : List Char) :
    digitsValueFrom base n (cs.map Char.toLower) = digitsValueFrom base n cs := by
  induction cs generalizing n with
  | nil => rfl
  | cons c cs ih => simp only [List.map_cons, digitsValueFrom, digitValue?_toLower, ih]

theorem digitsWord?_lower (base : Nat) (cs : List Char) :
    digitsWord? base (cs.map Char.toLower) = digitsWord? base cs := by
  simp only [digitsWord?, digits?, digitsValueFrom_lower, List.map_eq_nil_iff]

theorem read?_lower {s : Spelling} (hs : s.isDigit ∘ Char.toLower = s.isDigit) (cs : List Char) :
    s.read? (cs.map Char.toLower) = (s.read? cs).map fun (n, rest) => (n, rest.map Char.toLower) := by
  have hsize : (if s.sized then (cs.map Char.toLower).dropWhile Char.isDigit else cs.map Char.toLower) =
      (if s.sized then cs.dropWhile Char.isDigit else cs).map Char.toLower := by
    rw [List.dropWhile_map, isDigit_toLower]
    split <;> rfl
  unfold Spelling.read?
  simp only [hsize, afterWord?_lower]
  cases afterWord? s.marker (if s.sized then cs.dropWhile Char.isDigit else cs) with
  | none => rfl
  | some digits =>
    simp only [Option.map_some, Option.bind_eq_bind, Option.bind_some, List.takeWhile_map, List.dropWhile_map, hs,
      digitsWord?_lower]
    cases digitsWord? s.base (digits.takeWhile s.isDigit) <;> rfl

theorem findSome?_read?_lower {ss : List Spelling} (hss : ∀ s ∈ ss, s.isDigit ∘ Char.toLower = s.isDigit)
    (cs : List Char) :
    ss.findSome? (·.read? (cs.map Char.toLower)) =
      (ss.findSome? (·.read? cs)).map fun (n, rest) => (n, rest.map Char.toLower) := by
  induction ss with
  | nil => rfl
  | cons s ss ih =>
    obtain ⟨hs, hss⟩ := List.forall_mem_cons.1 hss
    rw [List.findSome?_cons, List.findSome?_cons, read?_lower hs, ih hss]
    cases s.read? cs <;> rfl

theorem spellings_toLower : ∀ s ∈ spellings, s.isDigit ∘ Char.toLower = s.isDigit := by
  simp [spellings, isDigit_toLower, isHexDigit_toLower, isBinDigit_toLower, isOctDigit_toLower]

/-- A number is spelled in either case. -/
theorem ofText?_lower (cs : List Char) : ofText? (cs.map Char.toLower) = ofText? cs := by
  have hfilter : (cs.map Char.toLower).filter (· ≠ '_') = (cs.filter (· ≠ '_')).map Char.toLower := by
    rw [List.filter_map]
    congr 2
    funext c
    simp [toLower_eq_iff]
  unfold ofText? spacedLiteral? literal?
  rw [hfilter, dropGaps_lower, findSome?_read?_lower spellings_toLower]
  cases spellings.findSome? (·.read? (dropGaps (cs.filter (· ≠ '_')))) with
  | none => rfl
  | some r =>
    simp only [Option.map_some, dropGaps_lower]
    cases dropGaps r.2 <;> rfl

end CoreForge.Number
