import CoreForge.Proofs.SlicedSearch
/-!
# The least position of a keyword

A keyword stands at a byte position when it occurs there with no character of an identifier directly before or behind it
(`WholeAt`). A round of the search that goes on has jumped over an occurrence inside of an identifier. Occurrences can
overlap, but the keyword stands nowhere from the start of that round to its end (`not_wholeAt_of_again`), since all
characters of an occurrence belong to one identifier. So the search ends with the least position from its start on, or
there is no position: `findKeyword_least`.
-/

namespace CoreForge.Entity.Sliced

open CoreForge.Text

/-- The keyword occurs at a byte position of the text, with no character of an identifier directly before or behind it. -/
def WholeAt (keyword text : List Char) (position : Nat) : Prop :=
  ∃ before after, text = before ++ (keyword ++ after) ∧ byteLength before = position ∧
    isBoundary before.getLast? = true ∧ isBoundary after.head? = true

section Positions
variable {keyword a b cs s t : List Char}

/-- Of two starts of a text, the one that is not longer in bytes is a start of the other. -/
theorem prefix_of_byteLength_le (hs : s <+: cs) (ht : t <+: cs) (h : byteLength s ≤ byteLength t) : s <+: t := by
  rcases List.prefix_or_prefix_of_prefix hs ht with hst | ⟨u, rfl⟩
  · exact hst
  · cases u with
    | nil => simp
    | cons c u =>
      have hpos := byteLength_pos (List.cons_ne_nil c u)
      rw [byteLength_append] at h
      omega

theorem byteLength_mono (h : s <+: t) : byteLength s ≤ byteLength t := by
  obtain ⟨u, rfl⟩ := h
  rw [byteLength_append]
  exact Nat.le_add_right _ _

/-- The positions from the end of the first text on are the places in the second one. -/
theorem wholeAt_iff_wordAt {position : Nat} :
    byteLength a ≤ position ∧ WholeAt keyword ((a ++ b).map Char.toLower) position ↔
      ∃ before after, WordAt keyword a.getLast? b before after ∧ byteLength (a ++ before) = position := by
  constructor
  · rintro ⟨hle, before, after, htext, rfl, hbefore, hafter⟩
    obtain ⟨x, rest, hsplit, rfl, hrest⟩ := List.map_eq_append_iff.1 htext
    obtain ⟨w, y, rfl, hw, rfl⟩ := List.map_eq_append_iff.1 hrest
    rw [byteLength_lower] at hle
    rw [List.getLast?_map, isBoundary_lower] at hbefore
    rw [head?_lower] at hafter
    have hfront : a <+: x := by
      apply prefix_of_byteLength_le (List.prefix_append a b) _ hle
      rw [hsplit]
      exact List.prefix_append x _
    obtain ⟨before, rfl⟩ := hfront
    rw [List.append_assoc] at hsplit
    rw [List.getLast?_append] at hbefore
    exact ⟨before, y, ⟨w, List.append_cancel_left hsplit, hw, hbefore, hafter⟩, (byteLength_lower _).symm⟩
  · rintro ⟨before, after, ⟨w, rfl, rfl, hbefore, hafter⟩, rfl⟩
    refine ⟨byteLength_mono (List.prefix_append a before), ?_⟩
    refine ⟨(a ++ before).map Char.toLower, after.map Char.toLower, by simp, byteLength_lower _, ?_, ?_⟩
    · rw [List.getLast?_map, isBoundary_lower, List.getLast?_append]
      exact hbefore
    · rw [head?_lower]
      exact hafter

/-! ## The first word -/

theorem isLeast_of_firstWord {before after : List Char} (h : FirstWord keyword a.getLast? b before after) :
    IsLeast {p | byteLength a ≤ p ∧ WholeAt keyword ((a ++ b).map Char.toLower) p} (byteLength (a ++ before)) := by
  refine ⟨wholeAt_iff_wordAt.2 ⟨before, after, h.wordAt, rfl⟩, ?_⟩
  intro p hp
  obtain ⟨before', after', hat, rfl⟩ := wholeAt_iff_wordAt.1 hp
  obtain ⟨w, hb, -⟩ := h.wordAt
  obtain ⟨w', hb', -⟩ := id hat
  have hfront : before <+: before' :=
    List.prefix_of_prefix_length_le ⟨_, hb.symm⟩ ⟨_, hb'.symm⟩ (h.first before' after' hat)
  exact byteLength_mono ((List.prefix_append_right_inj a).2 hfront)

theorem not_wholeAt_of_words_eq_nil (hne : keyword ≠ []) (h : words keyword a.getLast? b = []) {p : Nat}
    (hp : byteLength a ≤ p) : ¬ WholeAt keyword ((a ++ b).map Char.toLower) p := by
  intro hwhole
  obtain ⟨before, after, hat, -⟩ := wholeAt_iff_wordAt.1 ⟨hp, hwhole⟩
  rw [← mem_words_iff hne, h] at hat
  cases hat

/-- The first word has the least position, and without a word there is none. -/
theorem head?_words_isLeast (hne : keyword ≠ []) (a b : List Char) :
    (∀ position, (words keyword a.getLast? b).head?.map (fun o => byteLength (a ++ o.1)) = some position ↔
      IsLeast {p | byteLength a ≤ p ∧ WholeAt keyword ((a ++ b).map Char.toLower) p} position) ∧
    ((words keyword a.getLast? b).head?.map (fun o => byteLength (a ++ o.1)) = none ↔
      ∀ p, byteLength a ≤ p → ¬ WholeAt keyword ((a ++ b).map Char.toLower) p) := by
  cases hhead : (words keyword a.getLast? b).head? with
  | none =>
    have hnone : ∀ p, byteLength a ≤ p → ¬ WholeAt keyword ((a ++ b).map Char.toLower) p := fun p =>
      not_wholeAt_of_words_eq_nil hne (List.head?_eq_none_iff.1 hhead)
    refine ⟨fun position => ?_, by simpa using hnone⟩
    simp only [Option.map_none, reduceCtorEq, false_iff]
    exact fun hleast => hnone position hleast.1.1 hleast.1.2
  | some o =>
    have hleast := isLeast_of_firstWord ((head?_words_iff hne).1 hhead)
    constructor
    · intro position
      rw [Option.map_some, Option.some_inj]
      exact ⟨fun heq => heq ▸ hleast, hleast.unique⟩
    · simp only [Option.map_some, reduceCtorEq, false_iff]
      exact fun hnone => hnone _ hleast.1.1 hleast.1.2

/-! ## Rejected occurrences -/

/-- A round that goes on has come to an occurrence, the first one, and goes on behind it. -/
theorem keywordRound_eq_again {text : List Char} (hne : keyword ≠ []) {start next : Nat}
    (h : keywordRound text keyword start = .ok (.again next)) :
    ∃ a x y, text = a ++ (x ++ (keyword ++ y)) ∧ byteLength a = start ∧ byteLength (a ++ (x ++ keyword)) = next ∧
      cut? keyword (x ++ (keyword ++ y)) = some (x, y) ∧
      ¬ (isBoundary (x.getLast?.or a.getLast?) && isBoundary y.head?) = true := by
  cases hsplit : splitAtByte? start text with
  | none => simp [keywordRound, hsplit] at h
  | some parts =>
    obtain ⟨a, b⟩ := parts
    obtain ⟨rfl, rfl⟩ := splitAtByte?_eq_some_iff.1 hsplit
    cases hcut : cut? keyword b with
    | none =>
      rw [keywordRound_none hcut] at h
      cases h
    | some found =>
      obtain ⟨x, y⟩ := found
      obtain ⟨rfl, -⟩ := cut?_eq_some hne hcut
      rw [keywordRound_some hcut, List.getLast?_append] at h
      split at h
      · cases h
      · rename_i hinside
        cases h
        exact ⟨a, x, y, rfl, rfl, rfl, hcut, hinside⟩

/-- From the start of a round that goes on to where it goes on, the keyword stands nowhere. -/
theorem not_wholeAt_of_again (hk : ∀ k ∈ keyword, isIdentChar k = true) (hne : keyword ≠ []) {start next : Nat}
    (h : keywordRound (cs.map Char.toLower) keyword start = .ok (.again next)) :
    start < next ∧ ∀ p, start ≤ p → p < next → ¬ WholeAt keyword (cs.map Char.toLower) p := by
  obtain ⟨a, x, y, htext, rfl, rfl, hcut, hinside⟩ := keywordRound_eq_again hne h
  have hlower : (cs.map Char.toLower).map Char.toLower = cs.map Char.toLower := by simp [Function.comp_def]
  rw [htext] at hlower ⊢
  have hrest : (x ++ (keyword ++ y)).map Char.toLower = x ++ (keyword ++ y) := by
    rw [List.map_append] at hlower
    exact List.append_inj_right hlower (by simp)
  refine ⟨?_, ?_⟩
  · have hpos := byteLength_pos hne
    simp only [byteLength_append]
    omega
  · intro p hle hlt hwhole
    rw [← hlower] at hwhole
    obtain ⟨before, after, hat, rfl⟩ := wholeAt_iff_wordAt.1 ⟨hle, hwhole⟩
    -- The words are those behind the occurrence, which is none itself.
    rw [← mem_words_iff hne, words_of_cut? hk hne hrest hcut, if_neg hinside, List.nil_append] at hat
    obtain ⟨o, -, heq⟩ := List.mem_map.1 hat
    cases heq
    simp only [byteLength_append] at hlt
    omega

end Positions

/-- From a position between two characters on, the search for a keyword in a text in lower case ends with the least
position at which the keyword stands, or there is no such position. It takes no more rounds than there are bytes left,
and no round that goes on passes over a position at which the keyword stands. -/
theorem findKeyword_least {keyword cs a b : List Char} {start : Nat} (hk : ∀ k ∈ keyword, isIdentChar k = true)
    (hne : keyword ≠ []) (hstart : splitAtByte? start cs = some (a, b)) :
    let text := cs.map Char.toLower
    let found := (findWord? keyword a.getLast? b).map fun o => start + byteLength o.1
    findKeyword text keyword start = .ok found ∧
    (∀ n, byteLength b < n → rounds (keywordRound text keyword) n start = .ok found) ∧
    (∀ position, found = some position ↔ IsLeast {p | start ≤ p ∧ WholeAt keyword text p} position) ∧
    (found = none ↔ ∀ p, start ≤ p → ¬ WholeAt keyword text p) ∧
    ∀ s next, keywordRound text keyword s = .ok (.again next) →
      s < next ∧ ∀ p, s ≤ p → p < next → ¬ WholeAt keyword text p := by
  intro text found
  obtain ⟨rfl, rfl⟩ := splitAtByte?_eq_some_iff.1 hstart
  have hfound : found = (words keyword a.getLast? b).head?.map fun o => byteLength (a ++ o.1) := by
    simp only [found, findWord?_eq_head? hk hne, byteLength_append]
  have hrounds : ∀ n, byteLength b < n → rounds (keywordRound text keyword) n (byteLength a) = .ok found := by
    intro n hn
    rw [hfound]
    exact rounds_keywordRound hk hne a hn
  obtain ⟨hleast, hnone⟩ := head?_words_isLeast hne a b
  rw [← hfound] at hleast hnone
  refine ⟨hrounds _ ?_, hrounds, hleast, hnone, fun s next => not_wholeAt_of_again hk hne⟩
  rw [byteLength_lower, byteLength_append]
  omega

/-- Four occurrences are inside of identifiers, and the fifth is a word. -/
theorem findKeyword_least_inside :
    (∀ k ∈ "port".toList, isIdentChar k = true) ∧ "port".toList ≠ [] ∧
      splitAtByte? 3 "é port_port portport PORT(".toList = some ("é ".toList, "port_port portport PORT(".toList) ∧
      IsLeast {p | 3 ≤ p ∧ WholeAt "port".toList ("é port_port portport PORT(".toList.map Char.toLower) p} 22 := by
  have hk : ∀ k ∈ "port".toList, isIdentChar k = true :=
    all_isIdentChar (by decide)
  have hne : "port".toList ≠ [] := by decide
  have hstart : splitAtByte? 3 "é port_port portport PORT(".toList =
      some ("é ".toList, "port_port portport PORT(".toList) := by decide
  obtain ⟨-, -, hleast, -, -⟩ := findKeyword_least hk hne hstart
  exact ⟨hk, hne, hstart, (hleast 22).1 (by decide)⟩

end CoreForge.Entity.Sliced
