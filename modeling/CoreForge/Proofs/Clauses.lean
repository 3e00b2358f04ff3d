import CoreForge.Proofs.Keywords
import CoreForge.Proofs.Nesting
/-!
# Clauses and their entries

The body of a clause is what stands in the first group behind the keyword, and it is balanced
(`clauseBody_cases`). A balanced text comes apart at the semicolons outside of parentheses into pieces that
are balanced again, and such pieces put together come apart into themselves (`clauseBody_entries`).
-/

namespace CoreForge.Entity

open CoreForge.Text

/-! ## Balanced texts -/

/-- Nothing is closed that is not open, and nothing is open at the end. -/
structure Balanced (cs : List Char) : Prop where
  nonneg : ∀ a, a <+: cs → 0 ≤ parenDepth a
  closed : parenDepth cs = 0

/-- No semicolon stands outside of parentheses. -/
def Undivided (cs : List Char) : Prop := ∀ a b, cs = a ++ ';' :: b → parenDepth a ≠ 0

section Balanced
variable {barred : Option Char} {n m : Nat} {cs : List Char}

theorem depthAfter?_of_prefix {a : List Char} (h : depthAfter? barred n cs = some m) (ha : a <+: cs) :
    ∃ k, depthAfter? barred n a = some k ∧ n + parenDepth a = k := by
  obtain ⟨b, rfl⟩ := ha
  rw [depthAfter?_append, Option.bind_eq_some_iff] at h
  obtain ⟨k, hk, -⟩ := h
  exact ⟨k, hk, parenDepth_of_depthAfter? hk⟩

/-- There is a depth behind a text where it is never negative and where the barred character stands only inside of
parentheses. -/
theorem exists_depthAfter? (hnonneg : ∀ a, a <+: cs → 0 ≤ n + parenDepth a)
    (hbarred : ∀ a b, ∀ c ∈ barred, cs = a ++ c :: b → n + parenDepth a ≠ 0) :
    ∃ m, depthAfter? barred n cs = some m := by
  induction cs generalizing n with
  | nil => exact ⟨n, rfl⟩
  | cons c cs ih =>
    -- What holds of the whole text holds behind its first character.
    have hrest : ∀ k : Nat, (k : Int) = n + depthChange c → ∃ m, depthAfter? barred k cs = some m := by
      intro k hk
      refine ih ?_ ?_
      · intro a ha
        have hdepth := hnonneg (c :: a) (List.cons_prefix_cons.2 ⟨rfl, ha⟩)
        rw [parenDepth] at hdepth
        omega
      · intro a b d hd hcs
        have hdepth := hbarred (c :: a) b d hd (by rw [hcs, List.cons_append])
        rw [parenDepth] at hdepth
        omega
    simp only [depthAfter?]
    split
    · rename_i hopen
      exact hrest (n + 1) (by simp [hopen, depthChange])
    · rename_i hopen
      split
      · rename_i hclose
        have hdepth := hnonneg [c] (by simp)
        simp only [hclose, parenDepth, depthChange] at hdepth
        cases n with
        | zero => simp at hdepth
        | succ n => exact hrest n (by simp [hclose, depthChange])
      · rename_i hclose
        have hsame : (n : Int) = n + depthChange c := by simp [depthChange, hopen, hclose]
        split
        · rename_i hbar
          have hdepth := hbarred [] cs c hbar.1.symm rfl
          simp [parenDepth, hbar.2] at hdepth
        · exact hrest n hsame

theorem nested_iff : Nested cs ↔ Balanced cs := by
  constructor
  · intro h
    refine ⟨?_, h.parenDepth_eq⟩
    intro a ha
    obtain ⟨k, -, hk⟩ := depthAfter?_of_prefix h ha
    omega
  · intro h
    obtain ⟨m, hm⟩ : ∃ m, depthAfter? none 0 cs = some m := exists_depthAfter? (by simpa using h.nonneg) (by simp)
    have hdepth := parenDepth_of_depthAfter? hm
    rw [h.closed] at hdepth
    rw [Nested, hm, Option.some.injEq]
    omega

theorem closed_iff : Closed cs ↔ Balanced cs ∧ Undivided cs := by
  constructor
  · intro h
    refine ⟨nested_iff.1 h.nested, ?_⟩
    rintro a b rfl hdepth
    obtain ⟨k, hk, hdepth'⟩ := depthAfter?_of_prefix h (List.prefix_append a _)
    obtain rfl : k = 0 := by omega
    rw [Closed, depthAfter?_append, hk] at h
    cases h
  · rintro ⟨hbalanced, hundivided⟩
    have hnonneg : ∀ a, a <+: cs → 0 ≤ ((0 : Nat) : Int) + parenDepth a := by simpa using hbalanced.nonneg
    have hbarred : ∀ a b, ∀ c ∈ some ';', cs = a ++ c :: b → ((0 : Nat) : Int) + parenDepth a ≠ 0 := by
      intro a b c hc hcs
      cases hc
      simpa using hundivided a b hcs
    obtain ⟨m, hm⟩ := exists_depthAfter? hnonneg hbarred
    have hdepth := parenDepth_of_depthAfter? hm
    rw [hbalanced.closed] at hdepth
    rw [Closed, hm, Option.some.injEq]
    omega

end Balanced

/-! ## The body of a clause -/

/-- A clause of a text: the keyword as a whole word, in any case, gaps, and a group. -/
def ClauseAt (keyword cs before content : List Char) : Prop :=
  ∃ after rest, WordAt keyword none cs before after ∧ GroupAt after content rest

section Body
variable {keyword cs : List Char}

theorem clauseBody_eq (hk : isIdentifier keyword = true) (cs : List Char) :
    clauseBody keyword cs = (((words keyword none cs).findSome? fun o => group? o.2).map (·.1)).getD [] := by
  rw [clauseBody, occurrences_eq_words hk]

theorem clauseAt_iff (hk : isIdentifier keyword = true) {before content : List Char} :
    ClauseAt keyword cs before content ↔
      ∃ after rest, (before, after) ∈ words keyword none cs ∧ GroupAt after content rest := by
  simp only [ClauseAt, mem_words_iff (ne_nil_of_isIdentifier hk)]

/-- The body is what stands in the first clause, without the gaps before it, or nothing when there is no clause. -/
theorem clauseBody_cases (hk : isIdentifier keyword = true) (cs : List Char) :
    (∃ before content, ClauseAt keyword cs before content ∧
      (∀ before' content', ClauseAt keyword cs before' content' → before.length ≤ before'.length) ∧
      clauseBody keyword cs = dropGaps content) ∨
    (∀ before content, ¬ ClauseAt keyword cs before content) ∧ clauseBody keyword cs = [] := by
  simp only [clauseAt_iff hk]
  rw [clauseBody_eq hk]
  cases hfound : (words keyword none cs).findSome? fun o => group? o.2 with
  | none =>
    right
    refine ⟨?_, rfl⟩
    rintro before content ⟨after, rest, hword, hgroup⟩
    have hnone := List.findSome?_eq_none_iff.1 hfound _ hword
    rw [group?_eq_some_iff.2 ⟨content, hgroup, rfl⟩] at hnone
    cases hnone
  | some found =>
    left
    obtain ⟨inner, rest⟩ := found
    obtain ⟨earlier, ⟨before, after⟩, later, hwords, hgroup, hnone⟩ := List.findSome?_eq_some_iff.1 hfound
    obtain ⟨content, hcontent, rfl⟩ := group?_eq_some_iff.1 hgroup
    refine ⟨before, content, ⟨after, rest, by simp [hwords], hcontent⟩, ?_, rfl⟩
    rintro before' content' ⟨after', rest', hword', hgroup'⟩
    have hascending := words_ascending keyword none cs
    rw [hwords] at hascending hword'
    -- No group follows an earlier word, and a later one stands behind.
    rcases List.mem_append.1 hword' with hearlier | hlater
    · have hnone' := hnone _ hearlier
      rw [group?_eq_some_iff.2 ⟨content', hgroup', rfl⟩] at hnone'
      cases hnone'
    · rcases List.mem_cons.1 hlater with hsame | hlater
      · rw [(Prod.mk.inj hsame).1]
      · have hbehind := (List.pairwise_append.1 hascending).2.1
        exact Nat.le_of_lt ((List.pairwise_cons.1 hbehind).1 _ hlater)

end Body

/-! ## The entries of a clause -/

section Entries
variable {cs : List Char}

theorem depthAfter?_spaces {spaces : List Char} (h : ∀ c ∈ spaces, isSpace c = true) (n : Nat) :
    depthAfter? (some ';') n spaces = some n := by
  apply depthAfter?_of_plain
  intro c hc
  have hspace := h c hc
  rw [ne_eq, ne_eq, ne_eq, Option.some.injEq]
  refine ⟨?_, ?_, ?_⟩
  all_goals
    rintro rfl
    revert hspace
    decide

theorem Closed.trim (h : Closed cs) : Closed (Text.trim cs) := by
  obtain ⟨before, after, hcs, hbefore, hafter⟩ := exists_pad cs
  rw [Closed, hcs, depthAfter?_append, depthAfter?_spaces hbefore, Option.bind_some, depthAfter?_append,
    Option.bind_eq_some_iff] at h
  obtain ⟨k, hk, hend⟩ := h
  rw [depthAfter?_spaces hafter] at hend
  rw [Closed, hk, hend]

/-- Entries with semicolons between them come apart again. -/
theorem splitTopLevel_entries {ps : List (List Char)} (h : ∀ p ∈ ps, Closed p ∧ p ≠ [] ∧ Text.trim p = p) :
    splitTopLevel ';' ([';'].intercalate ps) = ps := by
  by_cases hne : ps = []
  · rw [hne]
    rfl
  · have htrim : ps.map Text.trim = ps := by
      conv_rhs => rw [← List.map_id ps]
      exact List.map_congr_left fun p hp => (h p hp).2.2
    rw [splitTopLevel_intercalate hne fun p hp => (h p hp).1, htrim, List.filter_eq_self]
    intro p hp
    simpa using (h p hp).2.1

end Entries

/-! ## Clauses as they are read -/

/-- The text stands in a clause of another: in the parentheses behind a keyword, with gaps before it. -/
def StandsInClause (keyword cs body : List Char) : Prop :=
  ∃ before word gaps gaps' rest, cs = before ++ (word ++ (gaps ++ '(' :: (gaps' ++ (body ++ ')' :: rest)))) ∧
    word.map Char.toLower = keyword ∧ isBoundary before.getLast? = true ∧ (∀ c ∈ gaps, isGap c = true) ∧
    ∀ c ∈ gaps', isGap c = true

/-- Only gaps stand in the first clause of the text. -/
def BlankClause (keyword cs : List Char) : Prop :=
  ∃ before content, ClauseAt keyword cs before content ∧ (∀ c ∈ content, isGap c = true) ∧
    ∀ before' content', ClauseAt keyword cs before' content' → before.length ≤ before'.length

theorem ClauseAt.standsInClause {keyword cs before content : List Char} (h : ClauseAt keyword cs before content) :
    StandsInClause keyword cs (dropGaps content) ∧ Balanced (dropGaps content) := by
  obtain ⟨after, rest, ⟨word, rfl, hlower, hbefore, -⟩, gaps, rfl, hgaps, hnested⟩ := h
  obtain ⟨gaps', hcontent, hgaps'⟩ := exists_gaps content
  refine ⟨⟨before, word, gaps, gaps', rest, ?_, hlower, by simpa using hbefore, hgaps, hgaps'⟩, nested_iff.1 hnested.dropGaps⟩
  conv_lhs => rw [hcontent]
  simp

/-- A text in pieces: balanced texts with no semicolon outside of parentheses, and semicolons between them. -/
def InPieces (cs : List Char) (ps : List (List Char)) : Prop :=
  ps ≠ [] ∧ [';'].intercalate ps = cs ∧ ∀ p ∈ ps, Balanced p ∧ Undivided p

theorem exists_inPieces {cs : List Char} (h : Balanced cs) : ∃ ps, InPieces cs ps := by
  obtain ⟨p, ps, hcs, hp, hps⟩ := exists_closed_pieces (nested_iff.2 h)
  have hclosed : ∀ q ∈ p :: ps, Closed q := List.forall_mem_cons.2 ⟨hp, hps⟩
  exact ⟨p :: ps, by simp, hcs.symm, fun q hq => closed_iff.1 (hclosed q hq)⟩

theorem InPieces.splitTopLevel_eq {cs : List Char} {ps : List (List Char)} (h : InPieces cs ps) :
    splitTopLevel ';' cs = (ps.map trim).filter (· ≠ []) := by
  obtain ⟨hne, rfl, hpieces⟩ := h
  exact splitTopLevel_intercalate hne fun p hp => closed_iff.2 (hpieces p hp)

theorem InPieces.entries {cs : List Char} {ps : List (List Char)} (h : InPieces cs ps) :
    ∀ p ∈ splitTopLevel ';' cs, p ≠ [] ∧ Balanced p ∧ Undivided p := by
  rw [h.splitTopLevel_eq]
  intro p hp
  obtain ⟨hmem, hfull⟩ := List.mem_filter.1 hp
  obtain ⟨q, hq, rfl⟩ := List.mem_map.1 hmem
  exact ⟨by simpa using hfull, closed_iff.1 (closed_iff.2 (h.2.2 q hq)).trim⟩

/-- The body of a clause is balanced, and stands in the first clause that is terminated, and balanced texts come apart
into entries without loss: the pieces of one are its entries, and entries put together come apart again. -/
theorem clauseBody_entries {keyword : List Char} (hk : isIdentifier keyword = true) (cs : List Char) :
    (clauseBody keyword cs = [] ∨
      Balanced (clauseBody keyword cs) ∧ StandsInClause keyword cs (clauseBody keyword cs)) ∧
    (clauseBody keyword cs = [] → (∀ before content, ¬ ClauseAt keyword cs before content) ∨ BlankClause keyword cs) ∧
    (∀ body, Balanced body → ∃ ps, InPieces body ps ∧ splitTopLevel ';' body = (ps.map trim).filter (· ≠ []) ∧
      ∀ p ∈ splitTopLevel ';' body, Balanced p ∧ Undivided p) ∧
    ∀ ps, (∀ p ∈ ps, p ≠ [] ∧ trim p = p ∧ Balanced p ∧ Undivided p) →
      splitTopLevel ';' ([';'].intercalate ps) = ps := by
  refine ⟨?_, ?_, ?_, ?_⟩
  · rcases clauseBody_cases hk cs with ⟨before, content, hclause, -, hbody⟩ | ⟨-, hbody⟩
    · rw [hbody]
      exact .inr hclause.standsInClause.symm
    · exact .inl hbody
  · intro hempty
    rcases clauseBody_cases hk cs with ⟨before, content, hclause, hfirst, hbody⟩ | ⟨hnone, -⟩
    · rw [hempty, eq_comm, dropGaps, List.dropWhile_eq_nil_iff] at hbody
      exact .inr ⟨before, content, hclause, hbody, hfirst⟩
    · exact .inl hnone
  · intro body hbalanced
    obtain ⟨ps, hpieces⟩ := exists_inPieces hbalanced
    exact ⟨ps, hpieces, hpieces.splitTopLevel_eq, fun p hp => (hpieces.entries p hp).2⟩
  · intro ps hps
    refine splitTopLevel_entries fun p hp => ?_
    obtain ⟨hfull, htrim, hclosed⟩ := hps p hp
    exact ⟨closed_iff.2 hclosed, hfull, htrim⟩

theorem clauseBody_entries_port :
    isIdentifier "port".toList = true ∧
      let region := "ports (x) Port\n( a : in t(7 downto 0); ; b : out u(1, (2)) );".toList
      Balanced (clauseBody "port".toList region) ∧ StandsInClause "port".toList region (clauseBody "port".toList region) ∧
      splitTopLevel ';' (clauseBody "port".toList region) = ["a : in t(7 downto 0)".toList, "b : out u(1, (2))".toList] := by
  have hk : isIdentifier "port".toList = true := by decide
  refine ⟨hk, ?_⟩
  intro region
  have hbody : clauseBody "port".toList region = "a : in t(7 downto 0); ; b : out u(1, (2)) ".toList := by decide
  obtain ⟨hbalanced, hstands⟩ := ((clauseBody_entries hk region).1).resolve_left (by rw [hbody]; decide)
  exact ⟨hbalanced, hstands, by rw [hbody]; decide⟩

end CoreForge.Entity
