/-!
# Maps sorted by key

A finite map from texts, kept as its entries in ascending order of their keys.
The order belongs to the type, so two maps with the same look-ups are equal, and
the entries are the map's own written form.
-/

namespace CoreForge

/-- Entries in strictly ascending order of their keys. -/
abbrev Ascending (entries : List (String × β)) : Prop := entries.Pairwise (·.1 < ·.1)

/-- Inserts an entry at its place, over an entry with the same key. -/
def insertEntry (k : String) (v : β) : List (String × β) → List (String × β)
  | [] => [(k, v)]
  | (k', v') :: es =>
    if k < k' then (k, v) :: (k', v') :: es
    else if k = k' then (k, v) :: es
    else (k', v') :: insertEntry k v es

theorem mem_insertEntry {k : String} {v : β} {es : List (String × β)} {e : String × β}
    (h : e ∈ insertEntry k v es) : e = (k, v) ∨ e ∈ es := by
  induction es with
  | nil => simpa [insertEntry] using h
  | cons e' es ih =>
    simp only [insertEntry] at h
    split at h
    · simpa using h
    · split at h
      · rcases List.mem_cons.1 h with h | h
        · exact .inl h
        · exact .inr (List.mem_cons_of_mem _ h)
      · rcases List.mem_cons.1 h with h | h
        · exact .inr (h ▸ List.mem_cons_self)
        · rcases ih h with h | h
          · exact .inl h
          · exact .inr (List.mem_cons_of_mem _ h)

theorem ascending_insertEntry {k : String} {v : β} {es : List (String × β)} (h : Ascending es) :
    Ascending (insertEntry k v es) := by
  induction es with
  | nil => simp [insertEntry, Ascending]
  | cons e es ih =>
    obtain ⟨hlt, hes⟩ := List.pairwise_cons.1 h
    simp only [insertEntry]
    split
    · rename_i hk
      refine List.pairwise_cons.2 ⟨fun e' he' => ?_, h⟩
      rcases List.mem_cons.1 he' with rfl | he'
      · exact hk
      · exact String.lt_trans hk (hlt e' he')
    · split
      · rename_i hk
        subst hk
        exact List.pairwise_cons.2 ⟨hlt, hes⟩
      · rename_i hk hne
        refine List.pairwise_cons.2 ⟨fun e' he' => ?_, ih hes⟩
        rcases mem_insertEntry he' with rfl | he'
        · exact Std.lt_of_le_of_ne (Std.not_lt.1 hk) (Ne.symm hne)
        · exact hlt e' he'

/-- A map from texts, sorted by key. -/
structure SortedMap (β : Type) where
  entries : List (String × β)
  ascending : Ascending entries

namespace SortedMap

instance [BEq β] : BEq (SortedMap β) := ⟨fun a b => a.entries == b.entries⟩

instance [Repr β] : Repr (SortedMap β) := ⟨fun m _ => repr m.entries⟩

/-- The map without entries. -/
def empty : SortedMap β := ⟨[], .nil⟩

instance : Inhabited (SortedMap β) := ⟨empty⟩

/-- The map with an entry added or replaced. -/
def insert (m : SortedMap β) (k : String) (v : β) : SortedMap β :=
  ⟨insertEntry k v m.entries, ascending_insertEntry m.ascending⟩

/-- The map of the given entries; of several with one key, the last counts. -/
def ofList (es : List (String × β)) : SortedMap β := es.foldl (fun m e => m.insert e.1 e.2) empty

/-- The value of a key. -/
def get? (m : SortedMap β) (k : String) : Option β := (m.entries.find? (·.1 == k)).map (·.2)

/-- The map has no entries. -/
def isEmpty (m : SortedMap β) : Bool := m.entries.isEmpty

end SortedMap

end CoreForge
