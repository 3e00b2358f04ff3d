import Mathlib.Data.List.Infix
import Mathlib.Data.List.TakeWhile
import CoreForge.Text.Ascii
/-!
# Searching and splitting texts

What stands at the start or at the end of a text, where a text is cut, and that pieces put
together with separators between them come apart again.
-/

namespace CoreForge.Text

/-! ## At the start and at the end -/

theorem afterStart?_eq_some_iff {pattern cs rest : List Char} :
    afterStart? pattern cs = some rest ↔ cs = pattern ++ rest := by
  induction pattern generalizing cs with
  | nil => simp [afterStart?]
  | cons p ps ih =>
    cases cs with
    | nil => simp [afterStart?]
    | cons c cs => simp [afterStart?, ih]

theorem afterStart?_eq_none_iff {pattern cs : List Char} : afterStart? pattern cs = none ↔ ¬ pattern <+: cs := by
  rw [Option.eq_none_iff_forall_ne_some]
  constructor
  · rintro h ⟨rest, rfl⟩
    exact h rest (afterStart?_eq_some_iff.2 rfl)
  · rintro h rest hrest
    exact h ⟨rest, (afterStart?_eq_some_iff.1 hrest).symm⟩

theorem beforeEnd?_eq_some {pattern cs before : List Char} (h : beforeEnd? pattern cs = some before) :
    cs = before ++ pattern := by
  obtain ⟨rest, hrest, rfl⟩ := Option.map_eq_some_iff.1 h
  have hsplit := congrArg List.reverse (afterStart?_eq_some_iff.1 hrest)
  simpa using hsplit

theorem beforeEnd?_append (before pattern : List Char) : beforeEnd? pattern (before ++ pattern) = some before := by
  unfold beforeEnd?
  rw [List.reverse_append, afterStart?_eq_some_iff.2 rfl, Option.map_some, List.reverse_reverse]

theorem afterWord?_eq_some_iff {word cs rest : List Char} :
    afterWord? word cs = some rest ↔ ∃ w, cs = w ++ rest ∧ w.map Char.toLower = word := by
  induction word generalizing cs with
  | nil => simp [afterWord?, eq_comm]
  | cons p ps ih =>
    cases cs with
    | nil => simp [afterWord?]
    | cons c cs =>
      simp only [afterWord?, Option.ite_none_right_eq_some, ih]
      constructor
      · rintro ⟨rfl, w, rfl, rfl⟩
        exact ⟨c :: w, rfl, rfl⟩
      · rintro ⟨w, hcs, hw⟩
        cases w with
        | nil => cases hw
        | cons d w =>
          cases hcs
          cases hw
          exact ⟨rfl, w, rfl, rfl⟩

theorem mem_afterWord? {c : Char} {word cs rest : List Char} (hw : c.toLower ∉ word) (h : afterWord? word cs = some rest)
    (hc : c ∈ cs) : c ∈ rest := by
  obtain ⟨w, rfl, rfl⟩ := afterWord?_eq_some_iff.1 h
  exact (List.mem_append.1 hc).resolve_left fun hmem => hw (List.mem_map_of_mem hmem)

theorem mem_dropWhile {p : Char → Bool} {c : Char} (hp : p c = false) {cs : List Char} (h : c ∈ cs) :
    c ∈ cs.dropWhile p := by
  have hsplit : c ∈ cs.takeWhile p ++ cs.dropWhile p := by rwa [List.takeWhile_append_dropWhile]
  refine (List.mem_append.1 hsplit).resolve_left fun htake => ?_
  rw [List.mem_takeWhile_imp htake] at hp
  cases hp

/-! ## Cutting -/

theorem cut?_eq_none_iff {pattern : List Char} (hp : pattern ≠ []) {cs : List Char} :
    cut? pattern cs = none ↔ ¬ pattern <:+: cs := by
  induction cs with
  | nil => simp [cut?, hp]
  | cons c cs ih =>
    rw [cut?, List.infix_cons_iff, not_or, ← ih, ← afterStart?_eq_none_iff]
    cases afterStart? pattern (c :: cs) <;> simp

/-- The pattern does not start before the first place where it can. -/
theorem not_starts_of_absent {pattern a : List Char} {c : Char} (h : ¬ pattern <:+: c :: a ++ pattern.dropLast)
    (b : List Char) : ¬ pattern <+: c :: (a ++ (pattern ++ b)) := by
  intro hmatch
  have hshort : c :: a ++ pattern.dropLast <+: c :: a ++ (pattern ++ b) :=
    (List.prefix_append_right_inj _).2 ((List.dropLast_prefix pattern).trans (List.prefix_append _ _))
  refine h (List.prefix_of_prefix_length_le hmatch hshort ?_).isInfix
  simp only [List.length_append, List.length_cons, List.length_dropLast]
  omega

/-- A text is cut at the first place where the pattern can start. -/
theorem cut?_append {pattern a : List Char} (hp : pattern ≠ []) (h : ¬ pattern <:+: a ++ pattern.dropLast)
    (b : List Char) : cut? pattern (a ++ (pattern ++ b)) = some (a, b) := by
  induction a with
  | nil =>
    cases pattern with
    | nil => contradiction
    | cons p ps =>
      rw [List.nil_append, List.cons_append, cut?, ← List.cons_append, afterStart?_eq_some_iff.2 rfl]
  | cons c a ih =>
    have hstart := not_starts_of_absent h b
    have hrest := ih fun hwithin => h (hwithin.trans (List.suffix_cons _ _).isInfix)
    rw [List.cons_append, cut?, afterStart?_eq_none_iff.2 hstart, hrest]
    rfl

/-- The pattern that a text is cut at is the first one. -/
theorem cut?_eq_some {pattern cs a b : List Char} (hp : pattern ≠ []) (h : cut? pattern cs = some (a, b)) :
    cs = a ++ (pattern ++ b) ∧ ¬ pattern <:+: a ++ pattern.dropLast := by
  induction cs generalizing a with
  | nil => simp [cut?, hp] at h
  | cons c cs ih =>
    rw [cut?] at h
    split at h
    · rename_i rest hstart
      cases h
      have hcs : c :: cs = pattern ++ b := afterStart?_eq_some_iff.1 hstart
      refine ⟨hcs, fun hwithin => ?_⟩
      have hlength := hwithin.length_le
      have hpos := List.length_pos_iff.2 hp
      simp only [List.nil_append, List.length_dropLast] at hlength
      omega
    · rename_i hstart
      obtain ⟨⟨a, b⟩, hcut, heq⟩ := Option.map_eq_some_iff.1 h
      cases heq
      obtain ⟨rfl, hfirst⟩ := ih hcut
      refine ⟨rfl, fun hwithin => ?_⟩
      rcases List.infix_cons_iff.1 hwithin with hstarts | hwithin
      · refine afterStart?_eq_none_iff.1 hstart (hstarts.trans ?_)
        have hdrop : pattern.dropLast <+: pattern ++ b := (List.dropLast_prefix pattern).trans (List.prefix_append _ _)
        exact (List.prefix_append_right_inj (c :: a)).2 hdrop
      · exact hfirst hwithin

/-- Two characters in a row stand in one of two texts or where they meet. -/
theorem pair_of_append {x y : Char} {a b : List Char} (h : [x, y] <:+: a ++ b) :
    [x, y] <:+: a ∨ [x, y] <:+: b ∨ a.getLast? = some x ∧ b.head? = some y := by
  rcases List.infix_append_iff.1 h with h | h | ⟨u, v, huv, hu, hv⟩
  · exact .inl h
  · exact .inr (.inl h)
  · match u with
    | [] =>
      obtain rfl : [x, y] = v := huv
      exact .inr (.inl hv.isInfix)
    | [c] =>
      cases huv
      obtain ⟨s, rfl⟩ := hu
      obtain ⟨t, rfl⟩ := hv
      exact .inr (.inr ⟨by simp, rfl⟩)
    | c :: d :: u =>
      obtain ⟨rfl, rfl, hnil⟩ : x = c ∧ y = d ∧ u ++ v = [] := by simpa [eq_comm] using huv
      rw [(List.append_eq_nil_iff.1 hnil).1] at hu
      exact .inl hu.isInfix

/-! ## Pieces -/

/-- The pieces with a text put before the first one. -/
def onFirst (a : List Char) : List (List Char) → List (List Char)
  | [] => [a]
  | p :: ps => (a ++ p) :: ps

theorem onFirst_nil {ps : List (List Char)} (h : ps ≠ []) : onFirst [] ps = ps := by
  cases ps with
  | nil => contradiction
  | cons p ps => rfl

theorem onFirst_onFirst (a b : List Char) (ps : List (List Char)) : onFirst a (onFirst b ps) = onFirst (a ++ b) ps := by
  cases ps <;> simp [onFirst]

theorem pieces_ne_nil (sep : Char) (cs : List Char) : pieces sep cs ≠ [] := by
  cases cs with
  | nil => simp [pieces]
  | cons c cs =>
    rw [pieces]
    split
    · simp
    · split <;> simp

theorem pieces_append {sep : Char} {a : List Char} (h : sep ∉ a) (b : List Char) :
    pieces sep (a ++ b) = onFirst a (pieces sep b) := by
  induction a with
  | nil => rw [List.nil_append, onFirst_nil (pieces_ne_nil sep b)]
  | cons c a ih =>
    obtain ⟨hc, ha⟩ := not_or.1 (List.mem_cons.not.1 h)
    rw [List.cons_append, pieces, if_neg (Ne.symm hc), ih ha]
    cases pieces sep b <;> rfl

/-- Pieces with separators between them come apart. -/
theorem pieces_intercalate {sep : Char} {ps : List (List Char)} (hne : ps ≠ []) (h : ∀ p ∈ ps, sep ∉ p) :
    pieces sep ([sep].intercalate ps) = ps := by
  induction ps with
  | nil => contradiction
  | cons p ps ih =>
    obtain ⟨hp, hps⟩ := List.forall_mem_cons.1 h
    cases ps with
    | nil =>
      have hpieces := pieces_append hp []
      rw [List.append_nil] at hpieces
      rw [List.intercalate_singleton, hpieces]
      simp [pieces, onFirst]
    | cons q qs =>
      have hrest := ih (by simp) hps
      rw [List.intercalate_cons_cons, List.append_assoc, pieces_append hp, List.singleton_append, pieces, if_pos rfl,
        hrest]
      simp [onFirst]

end CoreForge.Text
