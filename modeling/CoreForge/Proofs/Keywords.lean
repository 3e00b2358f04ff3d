import CoreForge.Entity.Word
import CoreForge.Proofs.Entities
import CoreForge.Proofs.Searching
/-!
# Keywords in a text

The places of a keyword are found by trying every position: passing over the rest of a
match loses none, since the characters of a match are characters of an identifier
(`occurrences_eq_words`). Where no identifier goes on from one text to the next, the words of
the two together are the words of each (`words_append`), so that a text put together from
parts lacks a word that none of the parts has.
-/

namespace CoreForge.Entity

open CoreForge.Text

/-! ## Keywords at the start of a text -/

section Keyword
variable {keyword : List Char}

theorem isIdentChar_of_lower {c : Char} (h : isIdentChar c.toLower = true) : isIdentChar c = true := by
  rwa [isIdentChar_toLower] at h

/-- No identifier goes on from one text to the next. -/
def Parted (a b : List Char) : Prop := isBoundary a.getLast? = true ∨ isBoundary b.head? = true

theorem isBoundary_some {c : Char} : isBoundary (some c) = !isIdentChar c := rfl

theorem Parted.tail {c : Char} {a b : List Char} (h : Parted (c :: a) b) : Parted a b := by
  cases a with
  | nil => exact .inl rfl
  | cons d a => exact h

/-- A keyword that starts in the first text ends there. -/
theorem afterWord?_append (hk : ∀ k ∈ keyword, isIdentChar k = true) {a b : List Char} (ha : a ≠ []) (h : Parted a b) :
    afterWord? keyword (a ++ b) = (afterWord? keyword a).map (· ++ b) := by
  induction keyword generalizing a with
  | nil => rfl
  | cons p ps ih =>
    obtain ⟨hp, hps⟩ := List.forall_mem_cons.1 hk
    cases a with
    | nil => contradiction
    | cons c a =>
      simp only [List.cons_append, afterWord?]
      split
      · rename_i hc
        cases a with
        | cons d a => exact ih hps (by simp) h.tail
        | nil =>
          -- The first text is at its end, and an identifier goes on only into the keyword.
          cases ps with
          | nil => rfl
          | cons q qs =>
            cases b with
            | nil => rfl
            | cons d b =>
              have hcident : isIdentChar c = true := isIdentChar_of_lower (hc ▸ hp)
              have hd : isIdentChar d = false := by simpa [Parted, isBoundary_some, hcident] using h
              have hne : d.toLower ≠ q := by
                rintro rfl
                rw [isIdentChar_of_lower (hps _ (by simp))] at hd
                cases hd
              simp [afterWord?, hne]
      · rfl

/-! ## All places of a keyword -/

/-- What follows the keyword at the start of a text, where it is a whole word. -/
def word? (keyword : List Char) (previous : Option Char) (cs : List Char) : Option (List Char) :=
  (afterWord? keyword cs).filter fun after => isBoundary previous && isBoundary after.head?

/-- The places where the keyword stands as a whole word, found by trying every one. -/
def words (keyword : List Char) : Option Char → List Char → List (List Char × List Char)
  | _, [] => []
  | previous, c :: cs =>
    ((word? keyword previous (c :: cs)).map fun after => ([], after)).toList ++
      (words keyword (some c) cs).map fun (before, after) => (c :: before, after)

/-- The characters of a match are characters of an identifier. -/
theorem identChars_of_afterWord? (hk : ∀ k ∈ keyword, isIdentChar k = true) (hne : keyword ≠ []) {c : Char}
    {cs after : List Char} (h : afterWord? keyword (c :: cs) = some after) :
    isIdentChar c = true ∧ keyword.length - 1 ≤ (cs.takeWhile isIdentChar).length := by
  obtain ⟨w, hw, rfl⟩ := afterWord?_eq_some_iff.1 h
  have hident : ∀ x ∈ w, isIdentChar x = true := fun x hx => isIdentChar_of_lower (hk _ (List.mem_map_of_mem hx))
  cases w with
  | nil => exact absurd rfl hne
  | cons d w =>
    cases hw
    obtain ⟨hd, hw⟩ := List.forall_mem_cons.1 hident
    exact ⟨hd, by simp [List.takeWhile_append_of_pos hw]⟩

theorem occurrences_skip (hk : ∀ k ∈ keyword, isIdentChar k = true) (hne : keyword ≠ [])
    (skip : Nat) (previous : Option Char) (cs : List Char)
    (hskip : skip ≤ (cs.takeWhile isIdentChar).length) (hprevious : skip ≠ 0 → isBoundary previous = false) :
    occurrences keyword skip previous cs = words keyword previous cs := by
  induction cs generalizing skip previous with
  | nil => cases skip <;> rfl
  | cons c cs ih =>
    cases skip with
    | succ k =>
      have hboundary := hprevious (Nat.succ_ne_zero k)
      have hc : isIdentChar c = true := by
        by_contra hc
        simp [hc] at hskip
      have hnone : word? keyword previous (c :: cs) = none := by simp [word?, hboundary]
      have hrest := ih k (some c) (by simpa [hc] using hskip) (fun _ => by simp [isBoundary_some, hc])
      simp [occurrences, words, hnone, hrest]
    | zero =>
      cases hafter : afterWord? keyword (c :: cs) with
      | none =>
        have hnone : word? keyword previous (c :: cs) = none := by simp [word?, hafter]
        simp [occurrences, words, hafter, hnone, ih 0 (some c) (by simp) (by simp)]
      | some after =>
        obtain ⟨hc, hlength⟩ := identChars_of_afterWord? hk hne hafter
        have hrest := ih (keyword.length - 1) (some c) hlength fun _ => by simp [isBoundary_some, hc]
        simp only [occurrences, words, word?, hafter, Option.filter_some, hrest]
        split <;> rfl

theorem findWord?_eq_head? (hk : ∀ k ∈ keyword, isIdentChar k = true) (hne : keyword ≠ []) (previous : Option Char)
    (cs : List Char) : findWord? keyword previous cs = (words keyword previous cs).head? := by
  rw [findWord?, occurrences_skip hk hne 0 previous cs (Nat.zero_le _) (by simp)]

theorem occurrences_eq_words (hk : isIdentifier keyword = true) (cs : List Char) :
    occurrences keyword 0 none cs = words keyword none cs :=
  occurrences_skip (all_isIdentChar hk) (ne_nil_of_isIdentifier hk) 0 none cs (Nat.zero_le _) (by simp)

/-! ## Words of two texts -/

theorem not_isBoundary_getLast? {a : List Char} (ha : a ≠ []) (hident : ∀ c ∈ a, isIdentChar c = true) :
    isBoundary a.getLast? = false := by
  rw [List.getLast?_eq_some_getLast ha, isBoundary_some, hident _ (List.getLast_mem ha)]
  rfl

theorem word?_append (hk : isIdentifier keyword = true) {a b : List Char} (ha : a ≠ []) (h : Parted a b)
    (previous : Option Char) : word? keyword previous (a ++ b) = (word? keyword previous a).map (· ++ b) := by
  have hchars := all_isIdentChar hk
  rw [word?, word?, afterWord?_append hchars ha h]
  cases hafter : afterWord? keyword a with
  | none => rfl
  | some after =>
    have hhead : isBoundary (after ++ b).head? = isBoundary after.head? := by
      cases after with
      | cons c after => rfl
      | nil =>
        obtain ⟨w, hw, rfl⟩ := afterWord?_eq_some_iff.1 hafter
        rw [List.append_nil] at hw
        have hlast : isBoundary a.getLast? = false := not_isBoundary_getLast? ha fun c hc =>
          isIdentChar_of_lower (hchars _ (List.mem_map_of_mem (hw ▸ hc)))
        have hb : isBoundary b.head? = true := h.resolve_left (by simp [hlast])
        simpa [isBoundary] using hb
    simp only [Option.map_some, Option.filter_some, hhead]
    split <;> rfl

theorem getLast?_cons_or (c : Char) (a : List Char) (previous : Option Char) :
    (c :: a).getLast?.or previous = a.getLast?.or (some c) := by
  rw [List.getLast?_cons]
  cases a.getLast? <;> rfl

theorem words_append_previous (hk : isIdentifier keyword = true) {a b : List Char} (h : Parted a b)
    (previous : Option Char) :
    words keyword previous (a ++ b) =
      (words keyword previous a).map (fun o => (o.1, o.2 ++ b)) ++
        (words keyword (a.getLast?.or previous) b).map fun o => (a ++ o.1, o.2) := by
  induction a generalizing previous with
  | nil => simp [words]
  | cons c a ih =>
    have hlast := getLast?_cons_or c a previous
    have hword := word?_append hk (List.cons_ne_nil c a) h previous
    rw [List.cons_append] at hword
    rw [List.cons_append, words, words, hword, ih h.tail, hlast]
    cases word? keyword previous (c :: a) <;> simp [Function.comp_def]

/-- What stands before a text does not matter unless an identifier goes on. -/
theorem words_previous (hk : isIdentifier keyword = true) {previous previous' : Option Char} {cs : List Char}
    (h : isBoundary previous = isBoundary previous' ∨ isBoundary cs.head? = true) :
    words keyword previous cs = words keyword previous' cs := by
  cases cs with
  | nil => rfl
  | cons c cs =>
    have hword : word? keyword previous (c :: cs) = word? keyword previous' (c :: cs) := by
      rcases h with h | h
      · simp [word?, h]
      · cases hafter : afterWord? keyword (c :: cs) with
        | none => simp [word?, hafter]
        | some after =>
          have hc := (identChars_of_afterWord? (all_isIdentChar hk) (ne_nil_of_isIdentifier hk) hafter).1
          rw [List.head?_cons, isBoundary_some, hc] at h
          cases h
    rw [words, words, hword]

/-- Where no identifier goes on, the words of two texts are the words of each. -/
theorem words_append (hk : isIdentifier keyword = true) {a b : List Char} (h : Parted a b) :
    words keyword none (a ++ b) =
      (words keyword none a).map (fun o => (o.1, o.2 ++ b)) ++ (words keyword none b).map fun o => (a ++ o.1, o.2) := by
  have hsecond : words keyword a.getLast? b = words keyword none b := words_previous hk h
  rw [words_append_previous hk h, Option.or_none, hsecond]

/-! ## Behind a match -/

/-- No word starts inside of an identifier. -/
theorem words_inside {w : List Char} (hw : ∀ c ∈ w, isIdentChar c = true) {previous : Option Char}
    (hprevious : isBoundary previous = false) (b : List Char) :
    words keyword previous (w ++ b) = (words keyword (w.getLast?.or previous) b).map fun o => (w ++ o.1, o.2) := by
  induction w generalizing previous with
  | nil => simp
  | cons c w ih =>
    obtain ⟨hc, hw⟩ := List.forall_mem_cons.1 hw
    have hnone : word? keyword previous (c :: (w ++ b)) = none := by simp [word?, hprevious]
    have hinside : isBoundary (some c) = false := by simp [isBoundary_some, hc]
    have hrest := ih hw hinside
    rw [List.cons_append, words, hnone, hrest, getLast?_cons_or]
    simp [Function.comp_def]

/-- The search goes on behind a match, which counts when it is a whole word. -/
theorem words_match (hk : ∀ k ∈ keyword, isIdentChar k = true) (hne : keyword ≠ []) {w : List Char}
    (hw : w.map Char.toLower = keyword) (previous : Option Char) (b : List Char) :
    words keyword previous (w ++ b) =
      (if isBoundary previous && isBoundary b.head? then [([], b)] else []) ++
        (words keyword w.getLast? b).map fun o => (w ++ o.1, o.2) := by
  have hident : ∀ c ∈ w, isIdentChar c = true := fun c hc =>
    isIdentChar_of_lower (hk _ (hw ▸ List.mem_map_of_mem hc))
  have hafter : afterWord? keyword (w ++ b) = some b := afterWord?_eq_some_iff.2 ⟨w, rfl, hw⟩
  cases w with
  | nil => exact absurd hw.symm hne
  | cons c w =>
    obtain ⟨hc, hident⟩ := List.forall_mem_cons.1 hident
    have hinside : words keyword (some c) (w ++ b) =
        (words keyword (w.getLast?.or (some c)) b).map fun o => (w ++ o.1, o.2) :=
      words_inside hident (by simp [isBoundary_some, hc]) b
    have hlast : (c :: w).getLast? = w.getLast?.or (some c) := by
      simpa using getLast?_cons_or c w none
    rw [List.cons_append] at hafter ⊢
    rw [words, hinside, hlast, word?, hafter, Option.filter_some]
    split <;> simp [Function.comp_def]

/-- The places behind the first one are found from behind it. -/
theorem words_eq_cons (hk : ∀ k ∈ keyword, isIdentChar k = true) (hne : keyword ≠ []) {previous : Option Char}
    {cs before after : List Char} {later : List (List Char × List Char)}
    (h : words keyword previous cs = (before, after) :: later) :
    ∃ w, cs = before ++ (w ++ after) ∧ w.map Char.toLower = keyword ∧
      later = (words keyword w.getLast? after).map fun o => (before ++ (w ++ o.1), o.2) := by
  induction cs generalizing previous before later with
  | nil => cases h
  | cons c cs ih =>
    cases hword : word? keyword previous (c :: cs) with
    | some rest =>
      obtain ⟨hafter, hboundary⟩ := Option.filter_eq_some_iff.1 hword
      obtain ⟨w, hw, hlower⟩ := afterWord?_eq_some_iff.1 hafter
      rw [hw, words_match hk hne hlower, if_pos hboundary] at h
      cases h
      exact ⟨w, hw, hlower, rfl⟩
    | none =>
      rw [words, hword] at h
      obtain ⟨⟨before', after'⟩, later', hplaces, heq, hlater⟩ := List.map_eq_cons_iff.1 h
      cases heq
      obtain ⟨w, rfl, hlower, rfl⟩ := ih hplaces
      refine ⟨w, rfl, hlower, ?_⟩
      rw [← hlater, List.map_map]
      rfl

/-! ## Texts without a word -/

theorem of_mem_words {previous : Option Char} {cs before after : List Char}
    (h : (before, after) ∈ words keyword previous cs) :
    ∃ word, cs = before ++ (word ++ after) ∧ word.map Char.toLower = keyword ∧
      isBoundary (before.getLast?.or previous) = true ∧ isBoundary after.head? = true := by
  induction cs generalizing previous before with
  | nil => cases h
  | cons c cs ih =>
    rw [words, List.mem_append, Option.mem_toList, Option.map_eq_some_iff, List.mem_map] at h
    rcases h with ⟨rest, hrest, hplace⟩ | ⟨⟨before', after'⟩, hmem, hplace⟩
    · cases hplace
      obtain ⟨hafter, hboundary⟩ := Option.filter_eq_some_iff.1 hrest
      obtain ⟨w, hw, hlower⟩ := afterWord?_eq_some_iff.1 hafter
      simp only [Bool.and_eq_true] at hboundary
      exact ⟨w, hw, hlower, hboundary⟩
    · cases hplace
      obtain ⟨w, rfl, hlower, hbefore, hboundary⟩ := ih hmem
      refine ⟨w, rfl, hlower, ?_, hboundary⟩
      rwa [getLast?_cons_or]

/-- The keyword stands in the text as a whole word, in any case. -/
def HasWord (keyword cs : List Char) : Prop :=
  ∃ before word after, cs = before ++ (word ++ after) ∧ word.map Char.toLower = keyword ∧
    isBoundary before.getLast? = true ∧ isBoundary after.head? = true

theorem words_eq_nil {cs : List Char} (h : ¬ HasWord keyword cs) : words keyword none cs = [] := by
  refine List.eq_nil_iff_forall_not_mem.2 fun ⟨before, after⟩ hmem => h ?_
  obtain ⟨w, hw, hlower, hbefore, hafter⟩ := of_mem_words hmem
  exact ⟨before, w, after, hw, hlower, by simpa using hbefore, hafter⟩

theorem mem_words {previous : Option Char} {before w after : List Char} (hk : keyword ≠ [])
    (hlower : w.map Char.toLower = keyword) (hbefore : isBoundary (before.getLast?.or previous) = true)
    (hafter : isBoundary after.head? = true) :
    (before, after) ∈ words keyword previous (before ++ (w ++ after)) := by
  induction before generalizing previous with
  | nil =>
    have hword : word? keyword previous (w ++ after) = some after := by
      rw [word?, afterWord?_eq_some_iff.2 ⟨w, rfl, hlower⟩, Option.filter_some, hafter, Bool.and_true]
      exact if_pos hbefore
    cases w with
    | nil => exact absurd hlower.symm hk
    | cons c w =>
      rw [List.cons_append] at hword
      simp [words, hword]
  | cons c before ih =>
    rw [getLast?_cons_or] at hbefore
    rw [List.cons_append, words, List.mem_append]
    exact .inr (List.mem_map.2 ⟨_, ih hbefore, rfl⟩)

theorem not_hasWord {cs : List Char} (hk : keyword ≠ []) (h : words keyword none cs = []) : ¬ HasWord keyword cs := by
  rintro ⟨before, w, after, rfl, hlower, hbefore, hafter⟩
  have hmem : (before, after) ∈ words keyword none (before ++ (w ++ after)) :=
    mem_words hk hlower (by simpa using hbefore) hafter
  rw [h] at hmem
  cases hmem

/-- Characters between identifiers make no word. -/
theorem words_of_not_isIdentChar (hk : isIdentifier keyword = true) {cs : List Char}
    (h : ∀ c ∈ cs, isIdentChar c = false) : words keyword none cs = [] := by
  refine List.eq_nil_iff_forall_not_mem.2 fun ⟨before, after⟩ hmem => ?_
  obtain ⟨w, rfl, rfl, -, -⟩ := of_mem_words hmem
  cases w with
  | nil => cases hk
  | cons c w =>
    have hc := h c (by simp)
    rw [isIdentChar_of_lower (all_isIdentChar hk c.toLower (by simp))] at hc
    cases hc

/-- An identifier is one word. -/
theorem words_of_isIdentifier {name : List Char} (hname : isIdentifier name = true)
    (h : name.map Char.toLower ≠ keyword) : words keyword none name = [] := by
  refine words_eq_nil fun ⟨before, w, after, hw, hlower, hbefore, hafter⟩ => h ?_
  have hident := all_isIdentChar hname
  cases before using List.reverseRecOn with
  | append_singleton before c =>
    simp [isBoundary_some, hident c (by simp [hw])] at hbefore
  | nil =>
    cases after with
    | cons c after => simp [isBoundary_some, hident c (by simp [hw])] at hafter
    | nil => rw [hw, List.nil_append, List.append_nil, hlower]

/-- The first place of a keyword, behind a text that lacks it. -/
theorem words_of_first (hk : isIdentifier keyword = true) (hlower : keyword.map Char.toLower = keyword)
    {a b : List Char} (ha : words keyword none a = []) (hbefore : isBoundary a.getLast? = true)
    (hafter : isBoundary b.head? = true) : ∃ later, words keyword none (a ++ (keyword ++ b)) = (a, b) :: later := by
  have hword : word? keyword none (keyword ++ b) = some b := by
    rw [word?, afterWord?_eq_some_iff.2 ⟨keyword, rfl, hlower⟩, Option.filter_some, hafter]
    rfl
  cases keyword with
  | nil => cases hk
  | cons k ks =>
    rw [words_append hk (.inl hbefore), ha]
    rw [List.cons_append] at hword ⊢
    rw [words, hword]
    exact ⟨_, by simp; rfl⟩

/-! ## The first word -/

/-- The keyword stands between two texts as a whole word, in any case; `previous` is the character before
the first one. -/
def WordAt (keyword : List Char) (previous : Option Char) (cs before after : List Char) : Prop :=
  ∃ word, cs = before ++ (word ++ after) ∧ word.map Char.toLower = keyword ∧
    isBoundary (before.getLast?.or previous) = true ∧ isBoundary after.head? = true

/-- The keyword stands between two texts as a whole word, and nowhere before. -/
structure FirstWord (keyword : List Char) (previous : Option Char) (cs before after : List Char) : Prop where
  wordAt : WordAt keyword previous cs before after
  first : ∀ before' after', WordAt keyword previous cs before' after' → before.length ≤ before'.length

theorem mem_words_iff (hk : keyword ≠ []) {previous : Option Char} {cs before after : List Char} :
    (before, after) ∈ words keyword previous cs ↔ WordAt keyword previous cs before after := by
  constructor
  · exact of_mem_words
  · rintro ⟨word, rfl, hlower, hbefore, hafter⟩
    exact mem_words hk hlower hbefore hafter

theorem words_ascending (keyword : List Char) (previous : Option Char) (cs : List Char) :
    (words keyword previous cs).Pairwise fun o o' => o.1.length < o'.1.length := by
  induction cs generalizing previous with
  | nil => exact .nil
  | cons c cs ih =>
    have hlater : ((words keyword (some c) cs).map fun o => (c :: o.1, o.2)).Pairwise
        fun o o' => o.1.length < o'.1.length := by
      rw [List.pairwise_map]
      exact (ih (some c)).imp fun h => Nat.succ_lt_succ h
    rw [words]
    cases word? keyword previous (c :: cs) with
    | none => exact hlater
    | some after =>
      refine List.pairwise_cons.2 ⟨?_, hlater⟩
      intro o ho
      obtain ⟨o', -, rfl⟩ := List.mem_map.1 ho
      exact Nat.zero_lt_succ _

theorem head?_words_iff (hk : keyword ≠ []) {previous : Option Char} {cs before after : List Char} :
    (words keyword previous cs).head? = some (before, after) ↔ FirstWord keyword previous cs before after := by
  have hascending := words_ascending keyword previous cs
  have hmem : ∀ o ∈ words keyword previous cs, WordAt keyword previous cs o.1 o.2 := fun o ho => (mem_words_iff hk).1 ho
  constructor
  · intro hhead
    obtain ⟨later, hwords⟩ := List.head?_eq_some_iff.1 hhead
    rw [hwords] at hascending hmem
    refine ⟨hmem _ List.mem_cons_self, ?_⟩
    intro before' after' hat
    rw [← mem_words_iff hk, hwords, List.mem_cons] at hat
    rcases hat with hsame | hlater
    · rw [(Prod.mk.inj hsame).1]
    · exact Nat.le_of_lt ((List.pairwise_cons.1 hascending).1 _ hlater)
  · intro ⟨hat, hfirst⟩
    have hplace := (mem_words_iff hk).2 hat
    cases hwords : words keyword previous cs with
    | nil => simp [hwords] at hplace
    | cons o later =>
      rw [hwords] at hascending hmem hplace
      rcases List.mem_cons.1 hplace with rfl | hlater
      · rfl
      · -- A later place cannot be the first one.
        have hle := hfirst _ _ (hmem o List.mem_cons_self)
        exact absurd ((List.pairwise_cons.1 hascending).1 _ hlater) (Nat.not_lt.2 hle)

theorem findWord?_eq_some_iff (hk : isIdentifier keyword = true) {cs before after : List Char} :
    findWord? keyword none cs = some (before, after) ↔ FirstWord keyword none cs before after := by
  have hne := ne_nil_of_isIdentifier hk
  rw [findWord?_eq_head? (all_isIdentChar hk) hne, head?_words_iff hne]

theorem findWord?_eq_none_iff (hk : isIdentifier keyword = true) {cs : List Char} :
    findWord? keyword none cs = none ↔ ∀ before after, ¬ WordAt keyword none cs before after := by
  have hne := ne_nil_of_isIdentifier hk
  rw [findWord?_eq_head? (all_isIdentChar hk) hne, List.head?_eq_none_iff, List.eq_nil_iff_forall_not_mem]
  simp [mem_words_iff hne]

end Keyword

/-! ## Identifiers -/

theorem identifier?_append_map {cs b : List Char} (h : cs ≠ []) (hb : isBoundary b.head? = true) :
    identifier? (cs ++ b) = (identifier? cs).map fun (name, rest) => (name, rest ++ b) := by
  have hstop : b.takeWhile isIdentChar = [] ∧ b.dropWhile isIdentChar = b := by
    cases b with
    | nil => simp
    | cons d b =>
      have hd : isIdentChar d = false := by simpa [isBoundary_some] using hb
      simp [hd]
  cases cs with
  | nil => contradiction
  | cons c cs =>
    have hname : (cs ++ b).takeWhile isIdentChar = cs.takeWhile isIdentChar := by
      rw [List.takeWhile_append, hstop.1, List.append_nil]
      split
      · rename_i hall
        exact ((List.takeWhile_prefix _).eq_of_length hall).symm
      · rfl
    have hrest : (cs ++ b).dropWhile isIdentChar = cs.dropWhile isIdentChar ++ b := by
      rw [List.dropWhile_append]
      split
      · rename_i hnone
        rw [hstop.2, List.isEmpty_iff.1 hnone, List.nil_append]
      · rfl
    simp only [List.cons_append, identifier?, hname, hrest]
    split <;> rfl

theorem identifier?_append {name rest : List Char} (hname : isIdentifier name = true)
    (hrest : isBoundary rest.head? = true) : identifier? (name ++ rest) = some (name, rest) := by
  rw [identifier?_append_map (ne_nil_of_isIdentifier hname) hrest]
  cases name with
  | nil => cases hname
  | cons c name =>
    simp only [isIdentifier, Bool.and_eq_true, List.all_eq_true] at hname
    simp [identifier?, hname.1, List.takeWhile_eq_self_iff.2 hname.2, List.dropWhile_eq_nil_iff.2 hname.2]

/-- An identifier is read as far as it goes. -/
theorem identifier?_eq_some_iff {cs name rest : List Char} :
    identifier? cs = some (name, rest) ↔ cs = name ++ rest ∧ isIdentifier name = true ∧ isBoundary rest.head? = true := by
  constructor
  · intro h
    have hname := isIdentifier_of_identifier? h
    cases cs with
    | nil => cases h
    | cons c cs =>
      simp only [identifier?, Option.ite_none_right_eq_some, Option.some.injEq, Prod.mk.injEq] at h
      obtain ⟨-, rfl, rfl⟩ := h
      refine ⟨by simp, hname, ?_⟩
      cases hrest : cs.dropWhile isIdentChar with
      | nil => rfl
      | cons d rest =>
        have hd := List.head?_dropWhile_not isIdentChar cs
        simpa [hrest, isBoundary_some] using hd
  · rintro ⟨rfl, hname, hrest⟩
    exact identifier?_append hname hrest

end CoreForge.Entity
