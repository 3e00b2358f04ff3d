import CoreForge.Entity.Clause
import CoreForge.Proofs.Searching
/-!
# Comments and line breaks

Removing comments also makes every line break a line feed and drops one at the end of the
text. Without comments that is all it does (`stripComments_eq`).
-/

namespace CoreForge.Entity

open CoreForge.Text

/-! ## Lines -/

/-- The text with its line breaks unified. -/
def unify (cs : List Char) : List Char := unlines (lines cs)

theorem lines_ne_nil {c : Char} {cs : List Char} : lines (c :: cs) ≠ [] := by
  unfold lines
  split
  · simp_all
  · simp
  · simp
  · simp
  · split <;> simp

theorem unlines_cons {l : List Char} {ls : List (List Char)} (h : ls ≠ []) :
    unlines (l :: ls) = l ++ '\n' :: unlines ls := by
  cases ls with
  | nil => contradiction
  | cons l' ls => rfl

theorem unify_carriageReturn (cs : List Char) : unify ('\r' :: '\n' :: cs) = unify ('\n' :: cs) := by
  simp [unify, lines]

theorem unify_lineFeed {cs : List Char} (h : cs ≠ []) : unify ('\n' :: cs) = '\n' :: unify cs := by
  cases cs with
  | nil => contradiction
  | cons c cs => rw [unify, lines, unlines_cons lines_ne_nil, List.nil_append, unify]

theorem lines_cons {c : Char} {cs : List Char} (hc : c ≠ '\n') (hcr : c = '\r' → cs.head? ≠ some '\n') :
    lines (c :: cs) = onFirst [c] (lines cs) := by
  cases cs with
  | nil => simp [lines, onFirst]
  | cons d cs =>
    rw [lines]
    · cases lines (d :: cs) <;> rfl
    · rintro hc rfl
      exact hcr hc rfl
    · exact hc

theorem unlines_onFirst {c : Char} {ls : List (List Char)} : unlines (onFirst [c] ls) = c :: unlines ls := by
  cases ls with
  | nil => rfl
  | cons l ls => cases ls <;> rfl

theorem unify_cons {c : Char} {cs : List Char} (hc : c ≠ '\n') (hcr : c = '\r' → cs.head? ≠ some '\n') :
    unify (c :: cs) = c :: unify cs := by
  rw [unify, lines_cons hc hcr, unlines_onFirst, unify]

/-- A word is left as it is. -/
theorem unify_word {word rest : List Char} (hline : '\n' ∉ word) (hend : ∀ c ∈ word.getLast?, c ≠ '\r') :
    unify (word ++ rest) = word ++ unify rest := by
  induction word with
  | nil => rfl
  | cons c cs ih =>
    obtain ⟨hc, hcs⟩ := not_or.1 (List.mem_cons.not.1 hline)
    have htail : ∀ d ∈ cs.getLast?, d ≠ '\r' := fun d hd => hend d (by
      rw [List.getLast?_cons, hd]
      rfl)
    rw [List.cons_append, List.cons_append, unify_cons (Ne.symm hc) ?_, ih hcs htail]
    rintro rfl hhead
    cases cs with
    | nil => exact hend '\r' rfl rfl
    | cons d cs =>
      cases hhead
      simp at hcs

/-- A text whose end is within a line is left apart from what follows it. -/
theorem unify_append {a : List Char} (hne : a ≠ []) (hend : ∀ c ∈ a.getLast?, c ≠ '\n' ∧ c ≠ '\r') (b : List Char) :
    unify (a ++ b) = unify a ++ unify b := by
  induction a with
  | nil => contradiction
  | cons c a ih =>
    cases a with
    | nil =>
      obtain ⟨hfeed, hreturn⟩ := hend c rfl
      rw [List.singleton_append, unify_cons hfeed (absurd · hreturn), unify_cons hfeed (absurd · hreturn)]
      rfl
    | cons d a =>
      have hrest := ih (by simp) hend
      rw [List.cons_append] at hrest
      rw [List.cons_append, List.cons_append]
      by_cases hfeed : c = '\n'
      · subst hfeed
        rw [unify_lineFeed (by simp), unify_lineFeed (by simp), hrest, List.cons_append]
      · by_cases hbreak : c = '\r' ∧ d = '\n'
        · obtain ⟨rfl, rfl⟩ := hbreak
          rw [unify_carriageReturn, unify_carriageReturn, hrest]
        · rw [unify_cons hfeed (by simpa using hbreak), unify_cons hfeed (by simpa using hbreak), hrest, List.cons_append]

theorem unify_line {word : List Char} (hline : '\n' ∉ word) (hend : ∀ c ∈ word.getLast?, c ≠ '\n' ∧ c ≠ '\r') :
    unify word = word := by
  have hword : unify (word ++ []) = word ++ unify [] := unify_word hline fun c hc => (hend c hc).2
  rwa [List.append_nil, show unify [] = [] from rfl, List.append_nil] at hword

/-- A gap is still a gap, and as empty as it was. -/
theorem unify_gaps {gaps rest : List Char} (hgaps : ∀ c ∈ gaps, isGap c = true)
    (hrest : ∀ c ∈ rest.head?, isGap c = false) :
    ∃ gaps', (∀ c ∈ gaps', isGap c = true) ∧ unify (gaps ++ rest) = gaps' ++ unify rest ∧
      (gaps ≠ [] → rest ≠ [] → gaps' ≠ []) := by
  induction gaps with
  | nil => exact ⟨[], by simp, rfl, by simp⟩
  | cons g gaps ih =>
    obtain ⟨hg, hgaps⟩ := List.forall_mem_cons.1 hgaps
    obtain ⟨gaps', hgaps', hunify, hne⟩ := ih hgaps
    -- Only a line feed at the end of the text and a carriage return before a line feed are lost.
    by_cases hfeed : g = '\n'
    · subst hfeed
      by_cases hempty : gaps ++ rest = []
      · obtain ⟨rfl, rfl⟩ := List.append_eq_nil_iff.1 hempty
        exact ⟨[], by simp, rfl, by simp⟩
      · refine ⟨'\n' :: gaps', List.forall_mem_cons.2 ⟨rfl, hgaps'⟩, ?_, by simp⟩
        rw [List.cons_append, unify_lineFeed hempty, hunify, List.cons_append]
    · by_cases hbreak : g = '\r' ∧ (gaps ++ rest).head? = some '\n'
      · obtain ⟨rfl, hhead⟩ := hbreak
        cases gaps with
        | nil =>
          rw [List.nil_append] at hhead
          cases hrest '\n' hhead
        | cons g' gaps =>
          cases hhead
          exact ⟨gaps', hgaps', (unify_carriageReturn _).trans hunify, fun _ => hne (by simp)⟩
      · refine ⟨g :: gaps', List.forall_mem_cons.2 ⟨hg, hgaps'⟩, ?_, by simp⟩
        rw [List.cons_append, unify_cons hfeed fun hcr hhead => hbreak ⟨hcr, hhead⟩, hunify, List.cons_append]

/-- What a text becomes, character by character. -/
theorem unify_induction {motive : List Char → List Char → Prop} (nil : motive [] []) (last : motive ['\n'] [])
    (feed : ∀ c cs, motive (c :: cs) (unify (c :: cs)) → motive ('\n' :: c :: cs) ('\n' :: unify (c :: cs)))
    (ret : ∀ cs, motive ('\n' :: cs) (unify ('\n' :: cs)) → motive ('\r' :: '\n' :: cs) (unify ('\n' :: cs)))
    (other : ∀ c cs, c ≠ '\n' → motive cs (unify cs) → motive (c :: cs) (c :: unify cs)) (cs : List Char) :
    motive cs (unify cs) := by
  induction cs with
  | nil => exact nil
  | cons c cs ih =>
    by_cases hfeed : c = '\n'
    · subst hfeed
      cases cs with
      | nil => exact last
      | cons d cs =>
        rw [unify_lineFeed (by simp)]
        exact feed d cs ih
    · by_cases hbreak : c = '\r' ∧ cs.head? = some '\n'
      · obtain ⟨rfl, hhead⟩ := hbreak
        cases cs with
        | nil => cases hhead
        | cons d cs =>
          cases hhead
          rw [unify_carriageReturn]
          exact ret cs ih
      · rw [unify_cons hfeed (by simpa using hbreak)]
        exact other c cs hfeed ih

theorem getLast?_unify {c : Char} (hc : c ≠ '\n') (cs : List Char) (h : cs.getLast? = some c) :
    (unify cs).getLast? = some c := by
  induction cs using unify_induction with
  | nil => exact h
  | last => exact absurd (Option.some.inj h).symm hc
  | feed d cs ih =>
    rw [List.getLast?_cons, ih h]
    rfl
  | ret cs ih => exact ih h
  | other d cs _ ih =>
    cases cs with
    | nil => exact h
    | cons d' cs =>
      rw [List.getLast?_cons, ih h]
      rfl

/-- Characters that come to stand next to each other were so before. -/
theorem pair_of_unify {x y : Char} (hx : x ≠ '\n') (hy : y ≠ '\n') {cs : List Char} (h : [x, y] <:+: unify cs) :
    [x, y] <:+: cs := by
  have hboth : ((unify cs).head? = some y → cs.head? = some y) ∧ ([x, y] <:+: unify cs → [x, y] <:+: cs) := by
    clear h
    induction cs using unify_induction with
    | nil => exact ⟨id, id⟩
    | last => exact ⟨by simp, by simp⟩
    | feed c cs ih =>
      refine ⟨id, fun hwithin => ?_⟩
      rcases List.infix_cons_iff.1 hwithin with hprefix | hwithin
      · exact absurd (List.cons_prefix_cons.1 hprefix).1 hx
      · exact List.infix_cons (ih.2 hwithin)
    | ret cs ih =>
      refine ⟨fun hhead => ?_, fun hwithin => List.infix_cons (ih.2 hwithin)⟩
      exact absurd (Option.some.inj (ih.1 hhead)).symm hy
    | other c cs _ ih =>
      refine ⟨id, fun hwithin => ?_⟩
      rcases List.infix_cons_iff.1 hwithin with hprefix | hwithin
      · obtain ⟨rfl, hhead⟩ := List.cons_prefix_cons.1 hprefix
        obtain ⟨tail, htail⟩ := hhead
        have hcs := ih.1 (by rw [← htail]; rfl)
        cases cs with
        | nil => cases hcs
        | cons d cs =>
          cases hcs
          exact ⟨[], cs, rfl⟩
      · exact List.infix_cons (ih.2 hwithin)
  exact hboth.2 h

/-! ## Comments -/

/-- The lines of a text are parts of it, and the first one stands at its start. -/
theorem lines_within (cs : List Char) : (∀ l ∈ (lines cs).head?, l <+: cs) ∧ ∀ l ∈ lines cs, l <:+: cs := by
  fun_induction lines cs with
  | case1 => simp
  | case2 cs ih =>
    refine ⟨by simp, List.forall_mem_cons.2 ⟨ List.nil_infix, fun l hl => ?_⟩⟩
    exact (ih.2 l hl).trans (List.suffix_append ['\r', '\n'] cs).isInfix
  | case3 cs ih =>
    refine ⟨by simp, List.forall_mem_cons.2 ⟨ List.nil_infix, fun l hl => ?_⟩⟩
    exact (ih.2 l hl).trans (List.suffix_cons _ _).isInfix
  | case4 c => simp
  | case5 c d cs _ _ hnil => exact absurd hnil lines_ne_nil
  | case6 c d cs _ _ l ls hlines ih =>
    simp only [hlines] at ih
    have hfirst : c :: l <+: c :: d :: cs := List.prefix_cons_inj c |>.2 (ih.1 l rfl)
    refine ⟨by simpa using hfirst, List.forall_mem_cons.2 ⟨hfirst.isInfix, fun l' hl' => ?_⟩⟩
    exact (ih.2 l' (by simp [hl'])).trans (List.suffix_cons _ _).isInfix

/-- Without comments, only line breaks change. -/
theorem stripComments_eq {cs : List Char} (h : ¬ ['-', '-'] <:+: cs) : stripComments cs = unify cs := by
  have hline : ∀ l ∈ lines cs, dropComment l = l := fun l hl => by
    have hnone : cut? ['-', '-'] l = none := (cut?_eq_none_iff (by simp)).2 fun hwithin =>
      h (hwithin.trans ((lines_within cs).2 l hl))
    rw [dropComment, hnone]
  rw [stripComments, List.map_congr_left hline, List.map_id', unify]

end CoreForge.Entity
