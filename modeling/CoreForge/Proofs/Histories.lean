import Mathlib.Data.List.Induction
import CoreForge.Proofs.Dictionaries
import CoreForge.Proofs.Scanning
/-!
# Dictionaries after a history of operations

What a dictionary holds can be told from the operations that it has been through: its keys are those of the operations,
each in the place of its first use, and the value of a key is what the operations on that key have made of it
(`valueAfter`). One more operation keeps this (`Recorded.step`) and the positions in the index (`indexed_apply`), so
both hold after any history, and all that is looked up follows: `run_reflects`.
-/

namespace CoreForge

/-! ## First uses -/

section FirstUses
variable {α : Type} [BEq α] [EquivBEq α]

/-- A further key comes last, unless it has been used before. -/
theorem eraseDups_concat (ks : List α) (k : α) :
    (ks ++ [k]).eraseDups = if ks.any (· == k) then ks.eraseDups else ks.eraseDups ++ [k] := by
  -- On the number of keys, since the first one is taken out of all others.
  induction hn : ks.length using Nat.strong_induction_on generalizing ks with
  | _ n ih =>
    cases ks with
    | nil => rfl
    | cons a ks =>
      rw [List.cons_append, List.eraseDups_cons, List.eraseDups_cons, List.filter_append, List.any_cons]
      cases ha : a == k with
      | true => simp [BEq.symm ha]
      | false =>
        have hk : (k == a) = false := by rw [BEq.comm, ha]
        have hshorter : (ks.filter fun b => !b == a).length < n := by
          have hle := List.length_filter_le (fun b => !b == a) ks
          rw [← hn, List.length_cons]
          omega
        have hany : (ks.filter fun b => !b == a).any (· == k) = ks.any (· == k) := by
          rw [List.any_filter]
          congr 1
          funext b
          cases hb : b == k with
          | false => rw [Bool.and_false]
          | true => rw [BEq.congr_left hb, hk]; rfl
        have hrest := ih _ hshorter _ rfl
        rw [hany] at hrest
        rw [List.filter_singleton, hk, Bool.not_false, cond_true, hrest, Bool.false_or]
        split <;> rfl

theorem any_eraseDups (ks : List α) (k : α) : ks.eraseDups.any (· == k) = ks.any (· == k) := by
  induction ks using List.reverseRecOn with
  | nil => rfl
  | append_singleton ks x ih =>
    rw [eraseDups_concat, List.any_append, List.any_cons, List.any_nil, Bool.or_false]
    split
    · rename_i hused
      rw [ih]
      cases hx : x == k with
      | false => rw [Bool.or_false]
      | true =>
        have hsame : (fun b : α => b == x) = fun b => b == k := by
          funext b
          exact BEq.congr_right hx
        rw [← hsame, hused, Bool.or_true]
    · rw [List.any_append, ih, List.any_cons, List.any_nil, Bool.or_false]

theorem distinct_eraseDups (ks : List α) : Distinct ks.eraseDups := by
  induction ks using List.reverseRecOn with
  | nil => exact .nil
  | append_singleton ks x ih =>
    rw [eraseDups_concat]
    split
    · exact ih
    · rename_i hnew
      rw [← any_eraseDups, List.any_eq_true] at hnew
      refine List.pairwise_append.2 ⟨ih, List.pairwise_singleton _ _, ?_⟩
      intro k hk y hy
      rw [List.mem_singleton.1 hy, ← Bool.not_eq_true]
      exact fun hsame => hnew ⟨k, hk, hsame⟩

end FirstUses

namespace OrderedDict

/-! ## Histories -/

/-- An operation on a dictionary. -/
inductive Operation (α β : Type)
  /-- Sets the value of a key. -/
  | insert (key : α) (value : β)
  /-- Changes the value in the entry of a key. -/
  | entry (key : α) (change : β → β)

namespace Operation
variable {α β : Type}

/-- The key of an operation. -/
def key : Operation α β → α
  | insert k _ => k
  | entry k _ => k

/-- The value that an operation gives its key, from the one before. -/
def value (default : β) (before : Option β) : Operation α β → β
  | insert _ v => v
  | entry _ f => f (before.getD default)

/-- The dictionary after an operation. -/
def apply [BEq α] [Hashable α] (default : β) (d : OrderedDict α β) : Operation α β → OrderedDict α β
  | insert k v => d.insert k v
  | entry k f => d.update k default f

end Operation

section History
variable {α β : Type} [BEq α]

/-- The dictionary after a history of operations. -/
def run [Hashable α] (default : β) (history : List (Operation α β)) : OrderedDict α β :=
  history.foldl (Operation.apply default) empty

/-- The value of a key after a history of operations, of which those on other keys do not matter. -/
def valueAfter (default : β) (history : List (Operation α β)) (k : α) : Option β :=
  (history.filter (·.key == k)).foldl (fun before o => some (o.value default before)) none

/-- The entries have the keys of the operations, by first use, with their values after all operations. -/
structure Recorded (default : β) (history : List (Operation α β)) (es : List (α × β)) : Prop where
  keys : es.map Prod.fst = (history.map Operation.key).eraseDups
  lookup : ∀ k, es.lookup k = valueAfter default history k

theorem recorded_nil (default : β) : Recorded default [] ([] : List (α × β)) where
  keys := rfl
  lookup _ := rfl

theorem valueAfter_concat (default : β) (history : List (Operation α β)) (o : Operation α β) (k : α) :
    valueAfter default (history ++ [o]) k =
      if o.key == k then some (o.value default (valueAfter default history k)) else valueAfter default history k := by
  rw [valueAfter, List.filter_append, List.filter_singleton, List.foldl_append]
  cases o.key == k <;> rfl

variable [EquivBEq α] {default : β} {history : List (Operation α β)} {es : List (α × β)}

theorem valueAfter_congr {k k' : α} (h : (k == k') = true) :
    valueAfter default history k = valueAfter default history k' := by
  have hsame : (fun o : Operation α β => o.key == k) = fun o => o.key == k' := by
    funext o
    exact BEq.congr_right h
  rw [valueAfter, valueAfter, hsame]

/-- One more operation. -/
theorem Recorded.step (h : Recorded default history es) (o : Operation α β) :
    Recorded default (history ++ [o]) (setEntry o.key (o.value default (es.lookup o.key)) es) where
  keys := by
    rw [keys_setEntry, h.keys, any_eraseDups, List.map_append, List.map_singleton, eraseDups_concat]
  lookup := by
    intro k
    rw [lookup_setEntry, valueAfter_concat, h.lookup, h.lookup, BEq.comm]
    split
    · rename_i hk
      rw [valueAfter_congr hk]
    · rfl

theorem Recorded.distinct (h : Recorded default history es) : Distinct (es.map Prod.fst) := by
  rw [h.keys]
  exact distinct_eraseDups _

variable [Hashable α] {d : OrderedDict α β}

theorem toList_apply (h : d.Indexed) (o : Operation α β) :
    (o.apply default d).toList = setEntry o.key (o.value default (d.toList.lookup o.key)) d.toList := by
  cases o with
  | insert k v => exact toList_insert h k v
  | entry k f => exact toList_update h k default f

theorem indexed_apply [LawfulHashable α] (h : d.Indexed) (o : Operation α β) : (o.apply default d).Indexed := by
  cases o with
  | insert k v => exact indexed_insert h k v
  | entry k f => exact indexed_update h k default f

/-- After any history, the index has the position of every key, and the entries are what the history tells. -/
theorem recorded_run [LawfulHashable α] (default : β) (history : List (Operation α β)) :
    (run default history).Indexed ∧ Recorded default history (run default history).toList := by
  induction history using List.reverseRecOn with
  | nil => exact ⟨indexed_empty, recorded_nil default⟩
  | append_singleton history o ih =>
    obtain ⟨hindexed, hrecorded⟩ := ih
    have hrun : run default (history ++ [o]) = o.apply default (run default history) := by
      rw [run, List.foldl_append]
      rfl
    rw [hrun, toList_apply hindexed]
    exact ⟨indexed_apply hindexed o, hrecorded.step o⟩

end History

/-! ## Entries in place -/

theorem modify_concat {α : Type} (xs : List α) (x : α) (f : α → α) : (xs ++ [x]).modify xs.length f = xs ++ [f x] := by
  induction xs with
  | nil => rfl
  | cons y ys ih => rw [List.cons_append, List.length_cons, List.modify_succ_cons, ih, List.cons_append]

theorem modify_push {α : Type} (xs : Array α) (x : α) (f : α → α) : (xs.push x).modify xs.size f = xs.push (f x) := by
  rw [← Array.toList_inj, Array.toList_modify, Array.toList_push, Array.toList_push, ← Array.length_toList,
    modify_concat]

/-- Setting a value to what is made of it is changing it in place. -/
theorem modify_value {α β : Type} (es : Array (α × β)) (i : Nat) (default : β) (f : β → β) :
    (es.modify i fun e => (e.1, f ((es[i]?.map Prod.snd).getD default))) = es.modify i fun e => (e.1, f e.2) := by
  apply Array.ext_getElem?
  intro j
  rw [Array.getElem?_modify, Array.getElem?_modify]
  split
  · rename_i hij
    rw [hij]
    cases es[j]? <;> rfl
  · rfl

section Places
variable {α β : Type} [BEq α] [Hashable α] {d : OrderedDict α β}

/-- Changing the value of a key is changing what stands at the position of its entry. -/
theorem update_eq_entry (d : OrderedDict α β) (k : α) (default : β) (f : β → β) :
    d.update k default f = (d.entry k default).1.modifyAt (d.entry k default).2 f := by
  unfold update entry modifyAt insert
  cases hindex : d.index[k]? with
  | none => simp [get?_of_new hindex, modify_push]
  | some i => simp only [get?_of_index hindex, modify_value]

variable [EquivBEq α]

theorem index_eq_some_iff (h : d.Indexed) (hdistinct : Distinct (d.toList.map Prod.fst)) {k : α} {i : Nat} :
    d.index[k]? = some i ↔ ∃ e, d.entries[i]? = some e ∧ (e.1 == k) = true := by
  rw [h, position?_eq_some_iff hdistinct]
  simp [toList]

/-- The entry of a key has this key and its value, or the default when it is new. -/
theorem getElem?_entry (h : d.Indexed) (hdistinct : Distinct (d.toList.map Prod.fst)) (k : α) (default : β) :
    ∃ e, (d.entry k default).1.entries[(d.entry k default).2]? = some e ∧ (e.1 == k) = true ∧
      e.2 = (d.get? k).getD default := by
  unfold entry
  cases hindex : d.index[k]? with
  | none => exact ⟨(k, default), by simp [insert, hindex], BEq.refl k, by rw [get?_of_new hindex, Option.getD_none]⟩
  | some i =>
    obtain ⟨e, hget, hk⟩ := (index_eq_some_iff h hdistinct).1 hindex
    exact ⟨e, hget, hk, by rw [get?_of_index hindex, hget, Option.map_some, Option.getD_some]⟩

end Places

/-! ## Counts -/

section Counts
variable {α : Type}

theorem firstMax?_eq_none_iff {es : List (α × Nat)} : firstMax? es = none ↔ es = [] := by
  cases es <;> simp [firstMax?]

theorem firstLargest_firstMax? {es : List (α × Nat)} {e : α × Nat} (h : firstMax? es = some e) :
    FirstLargest Prod.snd es e := by
  cases es with
  | nil => cases h
  | cons d ds =>
    cases h
    exact firstLargest_foldl d ds

variable [BEq α] [Hashable α] {d : OrderedDict α Nat}

theorem maxCount?_eq_none_iff : d.maxCount? = none ↔ d.isEmpty = true := by
  rw [maxCount?, firstMax?_eq_none_iff]
  simp [toList, isEmpty]

theorem maxCount?_eq_some_iff {e : α × Nat} : d.maxCount? = some e ↔ FirstLargest Prod.snd d.toList e := by
  constructor
  · exact firstLargest_firstMax?
  · intro hfirst
    cases hmax : d.maxCount? with
    | none =>
      have hmem := hfirst.mem
      rw [firstMax?_eq_none_iff.1 hmax] at hmem
      cases hmem
    | some e' => rw [(firstLargest_firstMax? hmax).unique hfirst]

end Counts

/-! ## All that a history tells -/

section Reflection
variable {α β : Type} [BEq α] [Hashable α]

/-- The dictionary is what its history tells. -/
structure Reflects (default : β) (history : List (Operation α β)) (d : OrderedDict α β) : Prop where
  /-- The index has the stored keys and no others, each with its position. -/
  index : ∀ k i, d.index[k]? = some i ↔ ∃ e : α × β, d.entries[i]? = some e ∧ (e.1 == k) = true
  distinct : Distinct (d.toList.map Prod.fst)
  /-- The entries are in the order of the first uses of their keys. -/
  keys : d.toList.map Prod.fst = (history.map Operation.key).eraseDups
  values : ∀ e ∈ d.toList, valueAfter default history e.1 = some e.2
  get?_eq : ∀ k, d.get? k = valueAfter default history k
  get?_eq_lookup : ∀ k, d.get? k = d.toList.lookup k
  contains_eq : ∀ k, d.contains k = (d.toList.map Prod.fst).any (· == k)
  size_eq : d.size = (history.map Operation.key).eraseDups.length
  /-- The position of the entry of a key, be it old or new, is that of an entry with this key. -/
  entry : ∀ k, ∃ e : α × β, (d.entry k default).1.entries[(d.entry k default).2]? = some e ∧ (e.1 == k) = true ∧
    e.2 = (d.get? k).getD default
  /-- A value is changed at that position. -/
  update : ∀ k f, d.update k default f = (d.entry k default).1.modifyAt (d.entry k default).2 f

theorem reflects [EquivBEq α] [LawfulHashable α] {default : β} {history : List (Operation α β)} {d : OrderedDict α β}
    (hindexed : d.Indexed) (h : Recorded default history d.toList) : Reflects default history d where
  index k i := index_eq_some_iff hindexed h.distinct
  distinct := h.distinct
  keys := h.keys
  values e he := by rw [← h.lookup, lookup_of_mem h.distinct he]
  get?_eq k := by rw [get?_eq hindexed, h.lookup]
  get?_eq_lookup k := get?_eq hindexed k
  contains_eq k := by
    rw [contains, Std.HashMap.contains_eq_isSome_getElem?, hindexed, position?, List.findIdx?_isSome, List.any_map]
    rfl
  size_eq := by rw [← h.keys, List.length_map, toList, Array.length_toList, size]
  entry k := getElem?_entry hindexed h.distinct k default
  update k f := update_eq_entry d k default f

/-- The entries, written out. -/
theorem Reflects.toList_eq {default : β} {history : List (Operation α β)} {d : OrderedDict α β}
    (h : Reflects default history d) :
    d.toList = (history.map Operation.key).eraseDups.map fun k => (k, (valueAfter default history k).getD default) := by
  rw [← h.keys, List.map_map]
  calc d.toList
    _ = d.toList.map id := (List.map_id _).symm
    _ = _ := by
      apply List.map_congr_left
      intro e he
      rw [Function.comp_apply, h.values e he, Option.getD_some, id]

/-- After any operations on an empty dictionary, its index, its entries and all that is looked up are what the
operations tell. Of counts, the first of the largest is found unless there are none. -/
theorem run_reflects {α : Type} [BEq α] [Hashable α] [EquivBEq α] [LawfulHashable α] :
    (∀ {β : Type} (default : β) (history : List (Operation α β)),
      Reflects default history (run default history)) ∧
    ∀ (default : Nat) (history : List (Operation α Nat)),
      ((run default history).maxCount? = none ↔ (run default history).isEmpty = true) ∧
      ∀ e, (run default history).maxCount? = some e ↔ FirstLargest Prod.snd (run default history).toList e := by
  constructor
  · intro β default history
    obtain ⟨hindexed, hrecorded⟩ := recorded_run default history
    exact reflects hindexed hrecorded
  · intro default history
    exact ⟨maxCount?_eq_none_iff, fun e => maxCount?_eq_some_iff⟩

/-- A key that is used again keeps its place, and of two largest counts the one with the earlier key is found. -/
theorem run_reflects_tie :
    let history : List (Operation String Nat) := [.entry "b" (· + 1), .insert "a" 3, .entry "b" (· + 2), .insert "c" 1]
    (run 0 history).toList = [("b", 3), ("a", 3), ("c", 1)] ∧ (run 0 history).get? "b" = some 3 ∧
      (run 0 history).size = 3 ∧ (run 0 history).maxCount? = some ("b", 3) := by
  intro history
  obtain ⟨hreflects, hcounts⟩ := run_reflects (α := String)
  have h := hreflects 0 history
  have hentries : (run 0 history).toList = [("b", 3), ("a", 3), ("c", 1)] := by
    rw [h.toList_eq]
    decide
  have hfirst : FirstLargest Prod.snd [("b", 3), ("a", 3), ("c", 1)] ("b", 3) :=
    ⟨[], [("a", 3), ("c", 1)], rfl, by simp, by decide⟩
  refine ⟨hentries, ?_, ?_, ?_⟩
  · rw [h.get?_eq]
    decide
  · rw [h.size_eq]
    decide
  · rw [(hcounts 0 history).2, hentries]
    exact hfirst

end Reflection

end OrderedDict

end CoreForge
