import Mathlib.Data.List.Nodup
import CoreForge.Collection.OrderedDict
/-!
# Dictionaries as lists of entries

A dictionary does what an association list does: looking up, setting and changing a value
act on the first entry with the key, and a new key goes to the end. The index only makes
this fast, as long as it gives the position of every key (`Indexed`), which every operation
preserves.
-/

namespace CoreForge

section Entries
variable {α β : Type} [BEq α]

/-- Where a key first stands among some entries. -/
def position? (k : α) (es : List (α × β)) : Option Nat := es.findIdx? (·.1 == k)

/-- The entries with the value of a key set. -/
def setEntry (k : α) (v : β) : List (α × β) → List (α × β)
  | [] => [(k, v)]
  | e :: es => if e.1 == k then (e.1, v) :: es else e :: setEntry k v es

/-- The entries with the value of a key changed. -/
def updateEntry (k : α) (default : β) (f : β → β) (es : List (α × β)) : List (α × β) :=
  setEntry k (f ((es.lookup k).getD default)) es

theorem setEntry_of_position {k : α} {v : β} {es : List (α × β)} {i : Nat} (h : position? k es = some i) :
    setEntry k v es = es.modify i fun e => (e.1, v) := by
  induction es generalizing i with
  | nil => cases h
  | cons e es ih =>
    rw [position?, List.findIdx?_cons] at h
    by_cases hk : (e.1 == k) = true
    · rw [if_pos hk] at h
      cases h
      simp [setEntry, hk]
    · rw [if_neg hk] at h
      obtain ⟨j, hj, rfl⟩ := Option.map_eq_some_iff.1 h
      simp [setEntry, hk, ih hj]

theorem setEntry_of_new {k : α} {v : β} {es : List (α × β)} (h : position? k es = none) :
    setEntry k v es = es ++ [(k, v)] := by
  induction es with
  | nil => rfl
  | cons e es ih =>
    rw [position?, List.findIdx?_cons] at h
    by_cases hk : (e.1 == k) = true
    · rw [if_pos hk] at h
      cases h
    · rw [if_neg hk, Option.map_eq_none_iff] at h
      simp [setEntry, hk, ih h]

theorem position?_modify {k : α} {v : β} (es : List (α × β)) (i : Nat) :
    position? k (es.modify i fun e => (e.1, v)) = position? k es := by
  induction es generalizing i with
  | nil => simp
  | cons e es ih =>
    cases i with
    | zero => simp [position?, List.findIdx?_cons]
    | succ i =>
      have hrest := ih i
      simp only [position?] at hrest
      simp [position?, List.findIdx?_cons, hrest]

theorem lookup_eq [PartialEquivBEq α] (k : α) (es : List (α × β)) :
    es.lookup k = (position? k es).bind fun i => (es[i]?).map (·.2) := by
  induction es with
  | nil => rfl
  | cons e es ih =>
    rw [position?, List.findIdx?_cons, List.lookup_cons, BEq.comm]
    cases hk : e.1 == k with
    | true => simp
    | false =>
      rw [ih, position?]
      cases es.findIdx? (·.1 == k) <;> rfl

/-- A key that has an entry keeps its place, and a new one comes last. -/
theorem keys_setEntry (k : α) (v : β) (es : List (α × β)) :
    (setEntry k v es).map Prod.fst =
      if (es.map Prod.fst).any (· == k) then es.map Prod.fst else es.map Prod.fst ++ [k] := by
  induction es with
  | nil => rfl
  | cons e es ih =>
    by_cases hk : (e.1 == k) = true
    · simp [setEntry, hk]
    · have hne : (e.1 == k) = false := Bool.eq_false_iff.2 hk
      rw [setEntry, if_neg hk, List.map_cons, ih, List.map_cons, List.any_cons, hne, Bool.false_or]
      split <;> rfl

/-- No two of the keys are the same. -/
def Distinct (ks : List α) : Prop := ks.Pairwise fun k k' => (k == k') = false

section Equivalence
variable [EquivBEq α]

theorem position?_congr {k k' : α} (h : (k == k') = true) (es : List (α × β)) : position? k es = position? k' es := by
  unfold position?
  congr 1
  funext e
  exact BEq.congr_right h

theorem lookup_setEntry (k : α) (v : β) (es : List (α × β)) (k' : α) :
    (setEntry k v es).lookup k' = if k' == k then some v else es.lookup k' := by
  induction es with
  | nil =>
    rw [setEntry, List.lookup_cons]
    cases k' == k <;> rfl
  | cons e es ih =>
    by_cases hk : (e.1 == k) = true
    · have hsame : (k' == e.1) = (k' == k) := BEq.congr_right hk
      rw [setEntry, if_pos hk, List.lookup_cons, List.lookup_cons, hsame]
      cases k' == k <;> rfl
    · rw [setEntry, if_neg hk, List.lookup_cons, List.lookup_cons, ih]
      cases he : k' == e.1 with
      | false => rfl
      | true =>
        have hne : ¬ (k' == k) = true := by rwa [BEq.congr_left he]
        simp [hne]

theorem lookup_of_mem {es : List (α × β)} (h : Distinct (es.map Prod.fst)) {e : α × β} (he : e ∈ es) :
    es.lookup e.1 = some e.2 := by
  induction es with
  | nil => cases he
  | cons d es ih =>
    obtain ⟨hd, hes⟩ := List.pairwise_cons.1 h
    rw [List.lookup_cons]
    rcases List.mem_cons.1 he with rfl | he
    · rw [BEq.refl]
    · have hne : (d.1 == e.1) = false := hd e.1 (List.mem_map_of_mem he)
      rw [BEq.comm, hne]
      exact ih hes he

/-- Where no two keys are the same, a key stands at one position. -/
theorem position?_eq_some_iff {es : List (α × β)} (h : Distinct (es.map Prod.fst)) {k : α} {i : Nat} :
    position? k es = some i ↔ ∃ e, es[i]? = some e ∧ (e.1 == k) = true := by
  rw [position?, List.findIdx?_eq_some_iff_getElem]
  constructor
  · rintro ⟨hi, hk, -⟩
    exact ⟨es[i], List.getElem?_eq_getElem hi, hk⟩
  · rintro ⟨e, hget, hk⟩
    obtain ⟨hi, rfl⟩ := List.getElem?_eq_some_iff.1 hget
    refine ⟨hi, hk, ?_⟩
    intro j hj hsame
    rw [Distinct, List.pairwise_map, List.pairwise_iff_getElem] at h
    have hne := h j i (by omega) hi hj
    rw [BEq.trans hsame (BEq.symm hk)] at hne
    cases hne

end Equivalence

end Entries

namespace OrderedDict

variable {α β : Type} [BEq α] [Hashable α] {d : OrderedDict α β}

/-- The index gives the position of every key. -/
def Indexed (d : OrderedDict α β) : Prop := ∀ k, d.index[k]? = position? k d.toList

theorem indexed_empty [EquivBEq α] [LawfulHashable α] : (empty : OrderedDict α β).Indexed := fun k => by
  simp [empty, toList, position?]

theorem get?_of_index {k : α} {i : Nat} (h : d.index[k]? = some i) : d.get? k = d.entries[i]?.map Prod.snd := by
  rw [get?, h, Option.bind_eq_bind, Option.bind_some]
  cases d.entries[i]? <;> rfl

theorem get?_of_new {k : α} (h : d.index[k]? = none) : d.get? k = none := by
  unfold get?
  rw [h]
  rfl

theorem get?_eq [PartialEquivBEq α] (h : d.Indexed) (k : α) : d.get? k = d.toList.lookup k := by
  rw [lookup_eq, ← h]
  cases hindex : d.index[k]? with
  | none => exact get?_of_new hindex
  | some i => rw [get?_of_index hindex, Option.bind_some, toList, Array.getElem?_toList]

theorem toList_insert (h : d.Indexed) (k : α) (v : β) : (d.insert k v).toList = setEntry k v d.toList := by
  unfold insert
  rw [h]
  cases hpos : position? k d.toList with
  | none => rw [setEntry_of_new hpos, toList, toList, Array.toList_push]
  | some i => rw [setEntry_of_position hpos, toList, toList, Array.toList_modify]

theorem toList_update [PartialEquivBEq α] (h : d.Indexed) (k : α) (default : β) (f : β → β) :
    (d.update k default f).toList = updateEntry k default f d.toList := by
  rw [update, toList_insert h, get?_eq h]
  rfl

variable [EquivBEq α] [LawfulHashable α]

theorem indexed_insert (h : d.Indexed) (k : α) (v : β) : (d.insert k v).Indexed := by
  intro k'
  rw [toList_insert h]
  unfold insert
  rw [h]
  cases hpos : position? k d.toList with
  | none =>
    rw [setEntry_of_new hpos, position?, List.findIdx?_append, ← position?, Std.HashMap.getElem?_insert]
    by_cases hk : (k == k') = true
    · have hnone : position? k' d.entries.toList = none := by
        rw [← position?_congr hk]
        exact hpos
      simp [hk, hnone, toList]
    · simp [hk, h k']
  | some i =>
    rw [setEntry_of_position hpos, position?_modify]
    exact h k'

theorem indexed_update (h : d.Indexed) (k : α) (default : β) (f : β → β) : (d.update k default f).Indexed :=
  indexed_insert h k _

/-- Changing the values of some keys, one after the other. -/
theorem toList_foldl_update (h : d.Indexed) (default : β) (f : β → β) (ks : List α) :
    (ks.foldl (fun d k => d.update k default f) d).toList = ks.foldl (fun es k => updateEntry k default f es) d.toList := by
  induction ks generalizing d with
  | nil => rfl
  | cons k ks ih => rw [List.foldl_cons, List.foldl_cons, ih (indexed_update h k default f), toList_update h]

end OrderedDict

end CoreForge
