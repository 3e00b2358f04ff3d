import CoreForge.Document.Record
/-!
# Records that are written field by field

A record is written as a mapping with one entry for each field that is not left out, under
the main name of the field and in the order of the layout. `Record.ofDocument?_written`:
such a mapping is read as the record of exactly these entries, as long as no field has the
main name of another one among its names. What a field of it reads is then found entry by
entry.
-/

namespace CoreForge

open Document

namespace Layout

/-- Main names are different, and each of them means its own field. -/
def Unambiguous (layout : Layout) : Prop :=
  (layout.map (·.name)).Nodup ∧ ∀ f ∈ layout, (layout.named? f.name).map (·.name) = some f.name

instance (layout : Layout) : Decidable layout.Unambiguous :=
  inferInstanceAs (Decidable (_ ∧ _))

/-- Entries for some of the fields, in their order and under their main names. -/
inductive Writes : Layout → List (Key × Document) → Prop
  | nil : Writes [] []
  | skip {f fs es} : Writes fs es → Writes (f :: fs) es
  | give {f fs es} (d : Document) : Writes fs es → Writes (f :: fs) (entry f.name d :: es)

variable {layout fs : Layout} {f : Field Shape} {es : List (Key × Document)}

theorem Writes.giveIf (present : Bool) (d : Document) (h : Writes fs es) :
    Writes (f :: fs) (entryIf present f.name d ++ es) := by
  cases present with
  | false => exact h.skip
  | true => exact h.give d

theorem Writes.giveOpt {α : Type} (encode : α → Document) (x : Option α) (h : Writes fs es) :
    Writes (f :: fs) (entryOpt f.name encode x ++ es) := by
  cases x with
  | none => exact h.skip
  | some a => exact h.give (encode a)

theorem Writes.lastIf (present : Bool) (d : Document) : Writes [f] (entryIf present f.name d) := by
  simpa using Writes.nil.giveIf (f := f) present d

theorem Writes.lastOpt {α : Type} (encode : α → Document) (x : Option α) : Writes [f] (entryOpt f.name encode x) := by
  simpa using Writes.nil.giveOpt (f := f) encode x

theorem Writes.exists_field (h : Writes fs es) : ∀ e ∈ es, ∃ f ∈ fs, e.1 = .text f.name := by
  induction h with
  | nil => simp
  | skip _ ih =>
    intro e he
    obtain ⟨f, hf, hname⟩ := ih e he
    exact ⟨f, by simp [hf], hname⟩
  | @give f fs es d _ ih =>
    intro e he
    rcases List.mem_cons.1 he with rfl | he
    · exact ⟨f, by simp, rfl⟩
    · obtain ⟨f, hf, hname⟩ := ih e he
      exact ⟨f, by simp [hf], hname⟩

end Layout

namespace Record

/-- The record of the entries with texts for their keys. -/
def ofEntries : List (Key × Document) → Record
  | [] => ⟨[]⟩
  | (.text s, d) :: es => ⟨(s, d) :: (ofEntries es).given⟩
  | _ :: es => ofEntries es

theorem given_sublist {layout : Layout} {es : List (Key × Document)} (h : layout.Writes es) :
    ((ofEntries es).given.map (·.1)).Sublist (layout.map (·.name)) := by
  induction h with
  | nil => exact .slnil
  | skip _ ih => exact ih.cons _
  | give d _ ih => exact ih.cons_cons _

theorem givenBy_cons {layout : Layout} {k : Key} {d : Document} {es : List (Key × Document)} {f : Field Shape}
    (h : layout.field? k = some f) : givenBy layout ((k, d) :: es) = (f.name, d) :: givenBy layout es := by
  simp [givenBy, h]

theorem givenBy_eq {layout : Layout} (hl : layout.Unambiguous) {es : List (Key × Document)}
    (h : ∀ e ∈ es, ∃ f ∈ layout, e.1 = .text f.name) : givenBy layout es = (ofEntries es).given := by
  induction es with
  | nil => rfl
  | cons e es ih =>
    obtain ⟨k, d⟩ := e
    obtain ⟨f, hf, rfl⟩ : ∃ f ∈ layout, k = .text f.name := h (k, d) (by simp)
    obtain ⟨g, hg, hname⟩ := Option.map_eq_some_iff.1 (hl.2 f hf)
    have hfield : layout.field? (.text f.name) = some g := hg
    rw [givenBy_cons hfield, hname, ih fun e he => h e (by simp [he])]
    rfl

/-- A mapping written for a layout is read as the record of its entries. -/
theorem ofDocument?_written {layout : Layout} (hl : layout.Unambiguous) {es : List (Key × Document)}
    (h : layout.Writes es) : ofDocument? layout (.object es) = some (ofEntries es) := by
  have hfield := h.exists_field
  have hkeys : es.all (·.1 ≠ .other) = true := by
    refine List.all_eq_true.2 fun e he => ?_
    obtain ⟨f, -, hkey⟩ := hfield e he
    simp [hkey]
  have hnodup : ((ofEntries es).given.map (·.1)).Nodup := hl.1.sublist (given_sublist h)
  simp only [ofDocument?, givenBy_eq hl hfield]
  rw [if_pos ⟨hkeys, hnodup⟩]

/-! ## What a field reads -/

variable {m n : String} {d : Document} {es : List (Key × Document)} {α β : Type}

theorem get?_entry : (ofEntries (entry n d :: es)).get? m = if m = n then some d else (ofEntries es).get? m := by
  simp only [get?, ofEntries, entry, List.lookup_cons]
  by_cases h : m = n
  · simp [h]
  · simp [h, beq_false_of_ne h]

section Value
variable {default : β} {read : Document → β}

@[simp]
theorem value_nil : (ofEntries []).value m default read = default := rfl

@[simp]
theorem value_entry : (ofEntries (entry n d :: es)).value m default read =
    if m = n then read d else (ofEntries es).value m default read := by
  simp only [value, get?_entry]
  by_cases h : m = n <;> simp [h]

@[simp]
theorem value_entryIf {present : Bool} : (ofEntries (entryIf present n d ++ es)).value m default read =
    if present = true ∧ m = n then read d else (ofEntries es).value m default read := by
  cases present <;> simp [entryIf]

@[simp]
theorem value_entryOpt {encode : α → Document} {x : Option α} :
    (ofEntries (entryOpt n encode x ++ es)).value m default read =
      if m = n then x.elim ((ofEntries es).value m default read) fun a => read (encode a)
      else (ofEntries es).value m default read := by
  cases x <;> simp [entryOpt]

@[simp]
theorem value_lastIf {present : Bool} : (ofEntries (entryIf present n d)).value m default read =
    if present = true ∧ m = n then read d else default := by
  rw [← List.append_nil (entryIf present n d), value_entryIf, value_nil]

@[simp]
theorem value_lastOpt {encode : α → Document} {x : Option α} :
    (ofEntries (entryOpt n encode x)).value m default read =
      if m = n then x.elim default fun a => read (encode a) else default := by
  rw [← List.append_nil (entryOpt n encode x), value_entryOpt, value_nil]

end Value

/-- A field reads as a value does, but may fail. -/
@[simp]
theorem field_eq_value {record : Record} {default : β} {read : Document → Option β} :
    record.field m default read = record.value m (some default) read := rfl

end Record

/-! ## Parts that are left out when there is nothing in them -/

namespace Document

@[simp]
theorem readText_text (s : String) : readText (.text s) = some s := rfl

/-- A text that is left out when it is empty. -/
@[simp]
theorem ite_empty (s : String) : (if s = "" then some "" else some s) = some s := by
  split
  · simp [*]
  · rfl

/-- An optional part that is left out when it is absent. -/
@[simp]
theorem elim_readOpt {α : Type} {read : Document → Option α} {encode : α → Document} (x : Option α)
    (hread : ∀ a ∈ x, read (encode a) = some a) (hnull : ∀ a ∈ x, encode a ≠ .null) :
    (x.elim (some none) fun a => readOpt read (encode a)) = some x := by
  cases x with
  | none => rfl
  | some a =>
    have ha := hread a rfl
    have hne := hnull a rfl
    cases h : encode a <;> simp_all [readOpt]

/-- A list whose items all read is read item by item. -/
theorem readList_map {α β : Type} {read : Document → Option β} {encode : α → Document} {f : α → β} (xs : List α)
    (h : ∀ x ∈ xs, read (encode x) = some (f x)) : readList read (.list (xs.map encode)) = some (xs.map f) := by
  rw [readList]
  induction xs with
  | nil => rfl
  | cons x xs ih =>
    have hrest := ih fun y hy => h y (by simp [hy])
    simp [List.mapM_cons, h x (by simp), hrest]

theorem readList_self {α : Type} {read : Document → Option α} {encode : α → Document} (xs : List α)
    (h : ∀ x ∈ xs, read (encode x) = some x) : readList read (.list (xs.map encode)) = some xs := by
  rw [readList_map xs h, List.map_id']

/-- A list that is left out when it is empty. -/
theorem ite_readList_map {α : Type} {read : Document → Option α} {encode : α → Document} {xs : List α}
    (h : ∀ x ∈ xs, read (encode x) = some x) :
    (if xs = [] then some [] else readList read (.list (xs.map encode))) = some xs := by
  split
  · simp [*]
  · exact readList_self xs h

end Document

end CoreForge
