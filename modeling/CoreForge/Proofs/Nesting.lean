import CoreForge.Entity.Clause
import CoreForge.Proofs.Characters
import CoreForge.Proofs.Searching
/-!
# Nested parentheses

A text is nested when its parentheses match, and closed when besides no semicolon stands
outside of them. Reading goes over such a text as a whole: the group around a nested text
ends behind it, and a closed text is in one piece with what surrounds it.
-/

namespace CoreForge.Entity

open CoreForge.Text

/-- The depth behind a text that starts at some depth. There is none when the text closes a
parenthesis that is not open, or has the barred character outside of parentheses. -/
def depthAfter? (barred : Option Char) : Nat → List Char → Option Nat
  | n, [] => some n
  | n, c :: cs =>
    if c = '(' then depthAfter? barred (n + 1) cs
    else if c = ')' then
      match n with
      | 0 => none
      | n + 1 => depthAfter? barred n cs
    else if some c = barred ∧ n = 0 then none
    else depthAfter? barred n cs

/-- The parentheses of the text match. -/
def Nested (cs : List Char) : Prop := depthAfter? none 0 cs = some 0

/-- The parentheses of the text match, and no semicolon stands outside of them. -/
def Closed (cs : List Char) : Prop := depthAfter? (some ';') 0 cs = some 0

instance (cs : List Char) : Decidable (Closed cs) := inferInstanceAs (Decidable (_ = _))

section Depth
variable {barred : Option Char} {n m : Nat} {a : List Char}

theorem depthAfter?_append (n : Nat) (a b : List Char) :
    depthAfter? barred n (a ++ b) = (depthAfter? barred n a).bind fun m => depthAfter? barred m b := by
  fun_induction depthAfter? barred n a <;> simp_all [depthAfter?]

theorem depthAfter?_none (h : depthAfter? barred n a = some m) : depthAfter? none n a = some m := by
  fun_induction depthAfter? barred n a <;> simp_all [depthAfter?]

/-- The depth counts the parentheses. -/
theorem parenDepth_of_depthAfter? (h : depthAfter? barred n a = some m) : n + parenDepth a = m := by
  fun_induction depthAfter? barred n a with
  | case1 n =>
    cases h
    simp [parenDepth]
  | case2 n cs ih =>
    have hrest := ih h
    simp only [parenDepth, depthChange, if_true]
    omega
  | case3 => cases h
  | case4 cs n _ ih =>
    have hrest := ih h
    simp only [parenDepth, depthChange, show ')' ≠ '(' by decide, if_false, if_true]
    omega
  | case5 => cases h
  | case6 n c cs hopen hclose _ ih =>
    have hrest := ih h
    simp only [parenDepth, depthChange, hopen, hclose, if_false]
    omega

theorem depthAfter?_of_plain (h : ∀ c ∈ a, c ≠ '(' ∧ c ≠ ')' ∧ some c ≠ barred) (n : Nat) :
    depthAfter? barred n a = some n := by
  induction a with
  | nil => rfl
  | cons c a ih =>
    obtain ⟨hc, ha⟩ := List.forall_mem_cons.1 h
    simp [depthAfter?, hc, ih ha]

/-- Nothing inside of a text closes what was open before it. -/
theorem untilUnbalanced_append (h : depthAfter? barred n a = some m) (b : List Char) :
    untilUnbalanced '(' ')' n (a ++ b) = (untilUnbalanced '(' ')' m b).map fun (inner, rest) => (a ++ inner, rest) := by
  fun_induction depthAfter? barred n a with
  | case1 n =>
    cases h
    simp
  | case2 n cs ih => simp [untilUnbalanced, ih h, Function.comp_def]
  | case3 => cases h
  | case4 cs n _ ih => simp [untilUnbalanced, ih h, Function.comp_def]
  | case5 => cases h
  | case6 n c cs hopen hclose _ ih => simp [untilUnbalanced, hopen, hclose, ih h, Function.comp_def]

theorem topLevelPieces_cons {sep c : Char} {depth : Int} {cs : List Char}
    (h : ¬ (c ≠ '(' ∧ c ≠ ')' ∧ c = sep ∧ depth = 0)) :
    topLevelPieces sep depth (c :: cs) = onFirst [c] (topLevelPieces sep (depth + depthChange c) cs) := by
  rw [topLevelPieces, if_neg h]
  cases topLevelPieces sep (depth + depthChange c) cs <;> rfl

theorem topLevelPieces_ne_nil (sep : Char) (depth : Int) (cs : List Char) : topLevelPieces sep depth cs ≠ [] := by
  cases cs with
  | nil => simp [topLevelPieces]
  | cons c cs =>
    rw [topLevelPieces]
    split
    · simp
    · split <;> simp

/-- Nothing inside of a text is separated. -/
theorem topLevelPieces_append (h : depthAfter? (some ';') n a = some m) (b : List Char) :
    topLevelPieces ';' n (a ++ b) = onFirst a (topLevelPieces ';' m b) := by
  fun_induction depthAfter? (some ';') n a with
  | case1 n =>
    cases h
    rw [List.nil_append, onFirst_nil (topLevelPieces_ne_nil _ _ _)]
  | case2 n cs ih =>
    rw [List.cons_append, topLevelPieces_cons (by simp)]
    exact (congrArg (onFirst ['(']) (ih h)).trans (onFirst_onFirst _ _ _)
  | case3 => cases h
  | case4 cs n _ ih =>
    have hdepth : ((n + 1 : Nat) : Int) + depthChange ')' = n := by
      have hclose : depthChange ')' = -1 := rfl
      omega
    rw [List.cons_append, topLevelPieces_cons (by simp), hdepth, ih h, onFirst_onFirst]
    rfl
  | case5 => cases h
  | case6 n c cs hopen hclose hsep ih =>
    have hdepth : (n : Int) + depthChange c = n := by simp [depthChange, hopen, hclose]
    rw [List.cons_append, topLevelPieces_cons (by simp_all), hdepth, ih h, onFirst_onFirst]
    rfl

end Depth

/-! ## Nested and closed texts -/

section Closed
variable {a b : List Char}

theorem Closed.nested (ha : Closed a) : Nested a := depthAfter?_none ha

theorem Closed.append (ha : Closed a) (hb : Closed b) : Closed (a ++ b) := by
  rw [Closed, depthAfter?_append, ha]
  exact hb

theorem Nested.append (ha : Nested a) (hb : Nested b) : Nested (a ++ b) := by
  rw [Nested, depthAfter?_append, ha]
  exact hb

theorem closed_of_plain (h : ∀ c ∈ a, c ≠ '(' ∧ c ≠ ')' ∧ c ≠ ';') : Closed a :=
  depthAfter?_of_plain (by simpa using h) 0

theorem Nested.parenDepth_eq (ha : Nested a) : parenDepth a = 0 := by
  simpa using parenDepth_of_depthAfter? ha

theorem parenDepth_append (a b : List Char) : parenDepth (a ++ b) = parenDepth a + parenDepth b := by
  induction a with
  | nil => simp [parenDepth]
  | cons c a ih => rw [List.cons_append, parenDepth, parenDepth, ih, Int.add_assoc]

/-- Inside of a nested text no parenthesis is closed that is not open. -/
theorem Nested.parenDepth_nonneg (h : Nested (a ++ b)) : 0 ≤ parenDepth a := by
  rw [Nested, depthAfter?_append, Option.bind_eq_some_iff] at h
  obtain ⟨m, hm, -⟩ := h
  have hdepth := parenDepth_of_depthAfter? hm
  omega

theorem nested_of_gaps (h : ∀ c ∈ a, isGap c = true) : Nested a := depthAfter?_of_plain (fun c hc => by
  have hgap := h c hc
  refine ⟨?_, ?_, by simp⟩ <;> rintro rfl <;> cases hgap) 0

theorem Nested.dropGaps (ha : Nested a) : Nested (dropGaps a) := by
  have hgaps : Nested (a.takeWhile isGap) := nested_of_gaps fun c hc => List.mem_takeWhile_imp hc
  have hsplit : Nested (a.takeWhile isGap ++ a.dropWhile isGap) := by rwa [List.takeWhile_append_dropWhile]
  rwa [Nested, depthAfter?_append, hgaps] at hsplit

/-- A group around a nested text. -/
theorem group?_nested (ha : Nested a) {gaps : List Char} (hgaps : ∀ c ∈ gaps, isGap c = true) (rest : List Char) :
    group? (gaps ++ '(' :: (a ++ ')' :: rest)) = some (Text.dropGaps a, rest) := by
  have hopen : Text.dropGaps (gaps ++ '(' :: (a ++ ')' :: rest)) = '(' :: (a ++ ')' :: rest) := by
    rw [Text.dropGaps, List.dropWhile_append_of_pos hgaps]
    rfl
  have hinner : Text.dropGaps (a ++ ')' :: rest) = Text.dropGaps a ++ ')' :: rest := by
    rw [Text.dropGaps, List.dropWhile_append]
    split
    · rename_i h
      rw [Text.dropGaps, List.isEmpty_iff.1 h]
      rfl
    · rfl
  rw [group?, hopen]
  simp only [hinner, untilUnbalanced_append ha.dropGaps, untilUnbalanced]
  simp

/-- Closed texts with semicolons between them are the pieces of what they make up. -/
theorem topLevelPieces_intercalate {ps : List (List Char)} (hne : ps ≠ []) (h : ∀ p ∈ ps, Closed p) :
    topLevelPieces ';' 0 ([';'].intercalate ps) = ps := by
  induction ps with
  | nil => contradiction
  | cons p ps ih =>
    obtain ⟨hp, hps⟩ := List.forall_mem_cons.1 h
    have hpieces := topLevelPieces_append hp
    cases ps with
    | nil =>
      rw [List.intercalate_singleton, ← List.append_nil p]
      exact hpieces []
    | cons q qs =>
      rw [List.intercalate_cons_cons, List.append_assoc]
      refine (hpieces _).trans ?_
      have hrest := ih (by simp) hps
      simp [topLevelPieces, hrest, onFirst]

/-- The entries of a text are its pieces between the semicolons outside of parentheses, trimmed, those with nothing in
them left out. -/
theorem splitTopLevel_intercalate {ps : List (List Char)} (hne : ps ≠ []) (h : ∀ p ∈ ps, Closed p) :
    splitTopLevel ';' ([';'].intercalate ps) = (ps.map trim).filter (· ≠ []) := by
  rw [splitTopLevel, topLevelPieces_intercalate hne h]
  refine List.filter_congr ?_
  intro p _
  cases p <;> rfl

/-- A semicolon outside of parentheses divides a nested text into closed pieces. -/
theorem exists_closed_pieces {n : Nat} (h : depthAfter? none n a = some 0) :
    ∃ p ps, a = [';'].intercalate (p :: ps) ∧ depthAfter? (some ';') n p = some 0 ∧ ∀ q ∈ ps, Closed q := by
  fun_induction depthAfter? none n a with
  | case1 n =>
    cases h
    exact ⟨[], [], rfl, rfl, by simp⟩
  | case2 n cs ih =>
    obtain ⟨p, ps, rfl, hp, hps⟩ := ih h
    exact ⟨'(' :: p, ps, by cases ps <;> simp, by simpa [depthAfter?] using hp, hps⟩
  | case3 => cases h
  | case4 cs n _ ih =>
    obtain ⟨p, ps, rfl, hp, hps⟩ := ih h
    exact ⟨')' :: p, ps, by cases ps <;> simp, by simpa [depthAfter?] using hp, hps⟩
  | case5 => cases h
  | case6 n c cs hopen hclose _ ih =>
    obtain ⟨p, ps, rfl, hp, hps⟩ := ih h
    by_cases hsep : c = ';' ∧ n = 0
    · obtain ⟨rfl, rfl⟩ := hsep
      exact ⟨[], p :: ps, by simp, rfl, List.forall_mem_cons.2 ⟨hp, hps⟩⟩
    · refine ⟨c :: p, ps, by cases ps <;> simp, ?_, hps⟩
      simpa [depthAfter?, hopen, hclose, hsep] using hp

end Closed

/-! ## Groups -/

section Groups
variable {cs inner content rest : List Char}

/-- What an unbalanced bracket ends is nested. -/
theorem untilUnbalanced_eq_some {n : Nat} (h : untilUnbalanced '(' ')' n cs = some (inner, rest)) :
    ∃ after, rest = ')' :: after ∧ cs = inner ++ rest ∧ depthAfter? none n inner = some 0 := by
  induction cs generalizing n inner with
  | nil => cases h
  | cons c cs ih =>
    -- What is found behind a character is found from there.
    have hgoOn : ∀ m, (untilUnbalanced '(' ')' m cs).map (fun o => (c :: o.1, o.2)) = some (inner, rest) →
        ∃ inner' after, inner = c :: inner' ∧ rest = ')' :: after ∧ cs = inner' ++ rest ∧
          depthAfter? none m inner' = some 0 := by
      intro m hm
      obtain ⟨⟨inner', rest'⟩, hfound, heq⟩ := Option.map_eq_some_iff.1 hm
      cases heq
      obtain ⟨after, hrest, hcs, hdepth⟩ := ih hfound
      exact ⟨inner', after, rfl, hrest, hcs, hdepth⟩
    simp only [untilUnbalanced] at h
    split at h
    · rename_i hopen
      obtain ⟨inner', after, rfl, rfl, rfl, hdepth⟩ := hgoOn _ h
      exact ⟨after, rfl, rfl, by simpa [depthAfter?, hopen] using hdepth⟩
    · rename_i hopen
      split at h
      · rename_i hclose
        cases n with
        | zero =>
          cases h
          exact ⟨cs, by rw [hclose], rfl, rfl⟩
        | succ n =>
          obtain ⟨inner', after, rfl, rfl, rfl, hdepth⟩ := hgoOn _ h
          exact ⟨after, rfl, rfl, by simpa [depthAfter?, hclose] using hdepth⟩
      · rename_i hclose
        obtain ⟨inner', after, rfl, rfl, rfl, hdepth⟩ := hgoOn _ h
        exact ⟨after, rfl, rfl, by simpa [depthAfter?, hopen, hclose] using hdepth⟩

/-- A group at the start of a text, behind gaps: what is in the parentheses, and what follows them. -/
def GroupAt (cs content rest : List Char) : Prop :=
  ∃ gaps, cs = gaps ++ '(' :: (content ++ ')' :: rest) ∧ (∀ c ∈ gaps, isGap c = true) ∧ Nested content

theorem group?_eq_some_iff :
    group? cs = some (inner, rest) ↔ ∃ content, GroupAt cs content rest ∧ inner = dropGaps content := by
  constructor
  · intro h
    have hfound := h
    unfold group? at h
    split at h
    · rename_i start hopen
      obtain ⟨⟨inner', rest'⟩, huntil, heq⟩ := Option.map_eq_some_iff.1 h
      obtain ⟨after, hrest, hstart, hnested⟩ := untilUnbalanced_eq_some huntil
      obtain ⟨rfl, rfl⟩ := Prod.mk.inj heq
      obtain ⟨gaps, hcs, hgaps⟩ := exists_gaps cs
      obtain ⟨gaps', hinside, hgaps'⟩ := exists_gaps start
      have hcontent : Nested (gaps' ++ inner') := (nested_of_gaps hgaps').append hnested
      have hgroup : cs = gaps ++ '(' :: (gaps' ++ inner' ++ ')' :: after) := by
        rw [hcs, hopen, hinside, hstart, hrest]
        simp
      have hread := group?_nested hcontent hgaps after
      rw [← hgroup, hfound, hrest] at hread
      exact ⟨gaps' ++ inner', ⟨gaps, by rw [hrest]; exact hgroup, hgaps, hcontent⟩, (Prod.mk.inj (Option.some.inj hread)).1⟩
    · cases h
  · rintro ⟨content, ⟨gaps, rfl, hgaps, hnested⟩, rfl⟩
    exact group?_nested hnested hgaps rest

end Groups

end CoreForge.Entity
