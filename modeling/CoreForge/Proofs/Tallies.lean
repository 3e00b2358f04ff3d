import CoreForge.Proofs.Histories
/-!
# Tallies

A dictionary in which every element of a list adds one to its own entry is a tally of the list
(`Tallied`): each entry has the number of occurrences of its key, and the keys stand in the order
of their first occurrences. So the first of the largest entries belongs to the first of the most
frequent elements (`Tallied.firstLargest`).
-/

namespace CoreForge

open OrderedDict

variable {α : Type}

/-- Each element adds one to its entry. -/
def tallying (ks : List α) : List (Operation α Nat) := ks.map fun k => .entry k (· + 1)

theorem tallying_concat (ks : List α) (k : α) : tallying (ks ++ [k]) = tallying ks ++ [.entry k (· + 1)] :=
  List.map_append

theorem map_key_tallying (ks : List α) : (tallying ks).map Operation.key = ks := by
  simp [tallying, Operation.key, Function.comp_def]

variable [BEq α] {ks : List α} {es : List (α × Nat)}

/-- The entries count the elements, by first occurrence. -/
structure Tallied (ks : List α) (es : List (α × Nat)) : Prop where
  nodup : (es.map Prod.fst).Nodup
  mem_iff : ∀ k, k ∈ es.map Prod.fst ↔ k ∈ ks
  lookup : ∀ k, (es.lookup k).getD 0 = ks.count k
  first : ∀ front k back, es.map Prod.fst = front ++ k :: back →
    ∃ before after, ks = before ++ k :: after ∧ ∀ x ∈ before, x ∈ front

theorem valueAfter_tallying (ks : List α) (k : α) : (valueAfter 0 (tallying ks) k).getD 0 = ks.count k := by
  induction ks using List.reverseRecOn with
  | nil => rfl
  | append_singleton ks x ih =>
    rw [tallying_concat, valueAfter_concat, Operation.key, List.count_append, List.count_singleton, ← ih]
    cases x == k <;> rfl

variable [LawfulBEq α]

/-- Before the first use of a key there are only keys with earlier first uses. -/
theorem exists_first_use {front back : List α} {k : α} (h : ks.eraseDups = front ++ k :: back) :
    ∃ before after, ks = before ++ k :: after ∧ ∀ x ∈ before, x ∈ front := by
  induction ks using List.reverseRecOn generalizing back with
  | nil => simp at h
  | append_singleton ks x ih =>
    rw [eraseDups_concat] at h
    split at h
    · obtain ⟨before, after, rfl, hbefore⟩ := ih h
      exact ⟨before, after ++ [x], by simp, hbefore⟩
    · rcases List.eq_nil_or_concat back with rfl | ⟨back, y, rfl⟩
      · obtain ⟨rfl, hx⟩ := List.append_inj' h rfl
        cases hx
        exact ⟨ks, [], rfl, fun k' hk' => List.mem_eraseDups.2 hk'⟩
      · rw [List.concat_eq_append, ← List.cons_append, ← List.append_assoc] at h
        obtain ⟨hkeys, -⟩ := List.append_inj' h rfl
        obtain ⟨before, after, rfl, hbefore⟩ := ih hkeys
        exact ⟨before, after ++ [x], by simp, hbefore⟩

theorem tallied_of_recorded (h : Recorded 0 (tallying ks) es) : Tallied ks es where
  nodup := h.distinct.imp beq_eq_false_iff_ne.1
  mem_iff k := by rw [h.keys, map_key_tallying, List.mem_eraseDups]
  lookup k := by rw [h.lookup, valueAfter_tallying]
  first front k back hsplit := by
    rw [h.keys, map_key_tallying] at hsplit
    exact exists_first_use hsplit

/-- Counting a list from nothing gives a tally of it. -/
theorem tallied_foldl (ks : List α) : Tallied ks (ks.foldl (fun es k => updateEntry k 0 (· + 1) es) []) := by
  apply tallied_of_recorded
  induction ks using List.reverseRecOn with
  | nil => exact recorded_nil 0
  | append_singleton ks k ih =>
    rw [List.foldl_append, tallying_concat]
    exact ih.step (.entry k (· + 1))

theorem Tallied.count_eq (h : Tallied ks es) {e : α × Nat} (he : e ∈ es) : e.2 = ks.count e.1 := by
  have hdistinct : Distinct (es.map Prod.fst) := h.nodup.imp beq_eq_false_iff_ne.2
  rw [← h.lookup, lookup_of_mem hdistinct he, Option.getD_some]

theorem Tallied.exists_entry (h : Tallied ks es) {k : α} (hk : k ∈ ks) : ∃ e ∈ es, e.1 = k ∧ e.2 = ks.count k := by
  obtain ⟨e, he, rfl⟩ := List.mem_map.1 ((h.mem_iff k).2 hk)
  exact ⟨e, he, rfl, h.count_eq he⟩

theorem Tallied.firstLargest (h : Tallied ks es) {e : α × Nat} (he : FirstLargest Prod.snd es e) :
    FirstLargest (ks.count ·) ks e.1 := by
  have hcount := h.count_eq he.mem
  obtain ⟨front, back, hes, hfront, -⟩ := id he
  have hkeys : es.map Prod.fst = front.map Prod.fst ++ e.1 :: back.map Prod.fst := by
    rw [hes, List.map_append, List.map_cons]
  obtain ⟨before, after, hks, hbefore⟩ := h.first _ _ _ hkeys
  refine ⟨before, after, hks, ?_, ?_⟩
  · intro k hk
    obtain ⟨d, hd, rfl⟩ := List.mem_map.1 (hbefore k hk)
    have hsmaller := hfront d hd
    rwa [hcount, h.count_eq (by rw [hes]; exact List.mem_append_left _ hd)] at hsmaller
  · intro k hk
    obtain ⟨d, hd, rfl, hcountd⟩ := h.exists_entry (k := k) (by rw [hks]; simp [hk])
    have hle := he.key_le d hd
    rwa [hcount, hcountd] at hle

end CoreForge
