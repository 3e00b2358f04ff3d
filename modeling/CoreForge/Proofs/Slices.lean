import Mathlib.Data.List.Infix
import CoreForge.Proofs.Letters
/-!
# Slices by byte positions

A text is stored in UTF-8, and a position in it counts bytes. A position is good when it lies between two characters,
at the start or at the end (`isSome_splitAtByte?_iff`), and a slice needs two good positions in their order
(`slice_eq_ok_iff`). What is computed from positions can go wrong: a slice may not exist, a number may not exist, and a
loop may not end. Each is a `Fault`.

A loop ends with an answer when an invariant fixes that answer and every round brings a measure down
(`rounds_eq`).
-/

namespace CoreForge.Text

/-! ## Byte positions -/

section Positions
variable {n : Nat} {a b cs : List Char}

theorem byteLength_append (a b : List Char) : byteLength (a ++ b) = byteLength a + byteLength b := by
  induction a with
  | nil => simp [byteLength]
  | cons c a ih => rw [List.cons_append, byteLength, byteLength, ih, Nat.add_assoc]

theorem byteLength_concat (a : List Char) (c : Char) : byteLength (a ++ [c]) = byteLength a + c.utf8Size := by
  rw [byteLength_append, byteLength, byteLength, Nat.add_zero]

theorem byteLength_eq (cs : List Char) : byteLength cs = (String.ofList cs).utf8ByteSize := by
  induction cs with
  | nil => rfl
  | cons c cs ih => rw [byteLength, ih, String.ofList_cons, String.utf8ByteSize_append, String.utf8ByteSize_singleton]

theorem byteLength_pos (h : cs ≠ []) : 0 < byteLength cs := by
  cases cs with
  | nil => contradiction
  | cons c cs =>
    have hc := c.utf8Size_pos
    rw [byteLength]
    omega

/-- A letter is as long in either case. -/
theorem byteLength_lower (cs : List Char) : byteLength (cs.map Char.toLower) = byteLength cs := by
  induction cs with
  | nil => rfl
  | cons c cs ih =>
    have hc : c.toLower.utf8Size = c.utf8Size := apply_toLower (by decide) c
    rw [List.map_cons, byteLength, byteLength, ih, hc]

theorem splitAtByte?_append (a b : List Char) : splitAtByte? (byteLength a) (a ++ b) = some (a, b) := by
  induction a with
  | nil => cases b <;> rfl
  | cons c a ih =>
    obtain ⟨n, hn⟩ := Nat.exists_eq_add_one_of_ne_zero (byteLength_pos (List.cons_ne_nil c a)).ne'
    have hrest : n + 1 - c.utf8Size = byteLength a := by
      rw [byteLength] at hn
      omega
    have hfits : c.utf8Size ≤ n + 1 := by
      rw [byteLength] at hn
      omega
    rw [hn, List.cons_append, splitAtByte?, if_pos hfits, hrest, ih]
    rfl

theorem splitAtByte?_eq_some_iff : splitAtByte? n cs = some (a, b) ↔ cs = a ++ b ∧ n = byteLength a := by
  constructor
  · intro h
    induction cs generalizing n a with
    | nil =>
      cases n with
      | zero =>
        cases h
        exact ⟨rfl, rfl⟩
      | succ n => cases h
    | cons c cs ih =>
      cases n with
      | zero =>
        cases h
        exact ⟨rfl, rfl⟩
      | succ n =>
        rw [splitAtByte?] at h
        split at h
        · rename_i hfits
          obtain ⟨⟨a, b⟩, hsplit, heq⟩ := Option.map_eq_some_iff.1 h
          cases heq
          obtain ⟨rfl, hlength⟩ := ih hsplit
          refine ⟨rfl, ?_⟩
          rw [byteLength]
          omega
        · cases h
  · rintro ⟨rfl, rfl⟩
    exact splitAtByte?_append a b

/-- A text is divided at the positions between its characters in UTF-8, and at no others. -/
theorem isSome_splitAtByte?_iff :
    (splitAtByte? n cs).isSome = true ↔ String.Pos.Raw.IsValid (String.ofList cs) ⟨n⟩ := by
  rw [Option.isSome_iff_exists, String.Pos.Raw.isValid_iff_exists_append]
  constructor
  · rintro ⟨⟨a, b⟩, hsplit⟩
    obtain ⟨rfl, rfl⟩ := splitAtByte?_eq_some_iff.1 hsplit
    exact ⟨String.ofList a, String.ofList b, String.ofList_append, by rw [byteLength_eq]; rfl⟩
  · rintro ⟨s, t, happend, hposition⟩
    refine ⟨(s.toList, t.toList), splitAtByte?_eq_some_iff.2 ⟨?_, ?_⟩⟩
    · rw [← String.toList_append, ← happend, String.toList_ofList]
    · rw [byteLength_eq, String.ofList_toList]
      exact congrArg String.Pos.Raw.byteIdx hposition

/-- Of two ends of a text, the one that is not longer in bytes is not longer in characters. -/
theorem length_le_of_byteLength_le {cs s t : List Char} (hs : s <:+ cs) (ht : t <:+ cs)
    (h : byteLength t ≤ byteLength s) : t.length ≤ s.length := by
  by_contra hlonger
  obtain ⟨u, rfl⟩ := List.suffix_of_suffix_length_le hs ht (by omega)
  cases u with
  | nil => simp at hlonger
  | cons c u =>
    have hpos := byteLength_pos (List.cons_ne_nil c u)
    rw [byteLength_append] at h
    omega

end Positions

/-! ## Faults -/

/-- What can go wrong in a computation on byte positions. -/
inductive Fault
  /-- A slice that ends outside of the text or before it starts, or that divides a character. -/
  | badSlice
  /-- A number below zero, or one beyond the largest number. -/
  | overflow
  /-- A loop that goes on when it should have ended. -/
  | endless
deriving DecidableEq, Repr

/-- A computation that may fail. -/
abbrev Checked := Except Fault

@[simp] theorem ok_bind {α β : Type} (a : α) (f : α → Checked β) : ((.ok a : Checked α) >>= f) = f a := rfl

theorem bind_eq_ok_iff {α β : Type} {x : Checked α} {f : α → Checked β} {b : β} :
    (x >>= f) = .ok b ↔ ∃ a, x = .ok a ∧ f a = .ok b := by
  cases x with
  | error fault => simp [bind, Except.bind]
  | ok a => simp

@[simp] theorem pure_eq_ok {α : Type} (a : α) : (pure a : Checked α) = .ok a := rfl

/-- The text divided at a byte position. -/
def splitAt (n : Nat) (cs : List Char) : Checked (List Char × List Char) :=
  match splitAtByte? n cs with
  | some parts => .ok parts
  | none => .error .badSlice

/-- The text up to a byte position. -/
def sliceTo (stop : Nat) (cs : List Char) : Checked (List Char) := do
  let (before, _) ← splitAt stop cs
  return before

/-- The text from a byte position on. -/
def sliceFrom (start : Nat) (cs : List Char) : Checked (List Char) := do
  let (_, after) ← splitAt start cs
  return after

/-- The text between two byte positions. -/
def slice (start stop : Nat) (cs : List Char) : Checked (List Char) := do
  if start ≤ stop then sliceFrom start (← sliceTo stop cs) else .error .badSlice

/-- The difference of two numbers. -/
def minus (m n : Nat) : Checked Nat := if n ≤ m then .ok (m - n) else .error .overflow

section Slices
variable {n : Nat} {a b c cs : List Char}

theorem splitAt_eq_ok_iff : splitAt n cs = .ok (a, b) ↔ cs = a ++ b ∧ n = byteLength a := by
  rw [← splitAtByte?_eq_some_iff, splitAt]
  cases splitAtByte? n cs <;> simp

theorem splitAt_append (a b : List Char) : splitAt (byteLength a) (a ++ b) = .ok (a, b) :=
  splitAt_eq_ok_iff.2 ⟨rfl, rfl⟩

theorem sliceTo_eq_ok_iff : sliceTo n cs = .ok a ↔ ∃ b, cs = a ++ b ∧ n = byteLength a := by
  simp [sliceTo, bind_eq_ok_iff, splitAt_eq_ok_iff]

theorem sliceFrom_eq_ok_iff : sliceFrom n cs = .ok b ↔ ∃ a, cs = a ++ b ∧ n = byteLength a := by
  simp [sliceFrom, bind_eq_ok_iff, splitAt_eq_ok_iff]

theorem sliceTo_append (a b : List Char) : sliceTo (byteLength a) (a ++ b) = .ok a :=
  sliceTo_eq_ok_iff.2 ⟨b, rfl, rfl⟩

theorem sliceFrom_append (a b : List Char) : sliceFrom (byteLength a) (a ++ b) = .ok b :=
  sliceFrom_eq_ok_iff.2 ⟨a, rfl, rfl⟩

/-- Nothing is a slice but a part of the text between two characters that stand in this order. -/
theorem slice_eq_ok_iff {start stop : Nat} :
    slice start stop cs = .ok b ↔ ∃ a c, cs = a ++ (b ++ c) ∧ start = byteLength a ∧ stop = byteLength (a ++ b) := by
  constructor
  · intro h
    unfold slice at h
    split at h
    · obtain ⟨before, hto, hfrom⟩ := bind_eq_ok_iff.1 h
      obtain ⟨c, rfl, rfl⟩ := sliceTo_eq_ok_iff.1 hto
      obtain ⟨a, rfl, rfl⟩ := sliceFrom_eq_ok_iff.1 hfrom
      exact ⟨a, c, List.append_assoc _ _ _, rfl, rfl⟩
    · cases h
  · rintro ⟨a, c, rfl, rfl, rfl⟩
    have hle : byteLength a ≤ byteLength (a ++ b) := by
      rw [byteLength_append]
      exact Nat.le_add_right _ _
    rw [slice, if_pos hle, ← List.append_assoc, sliceTo_append]
    exact sliceFrom_append a b

theorem slice_append (a b c : List Char) :
    slice (byteLength a) (byteLength (a ++ b)) (a ++ (b ++ c)) = .ok b :=
  slice_eq_ok_iff.2 ⟨a, c, rfl, rfl, rfl⟩

/-- A slice that divides a character. -/
example : slice 0 1 "é".toList = .error .badSlice := by decide

/-- A slice that ends before it starts. -/
example : slice 2 1 "port".toList = .error .badSlice := by decide

theorem minus_append (a b : List Char) : minus (byteLength (a ++ b)) (byteLength b) = .ok (byteLength a) := by
  rw [minus, byteLength_append, if_pos (Nat.le_add_left _ _), Nat.add_sub_cancel]

end Slices

/-! ## Loops -/

/-- The end of one round of a loop. -/
inductive Round (σ α : Type)
  /-- The loop goes on. -/
  | again (state : σ)
  /-- The loop ends. -/
  | done (answer : α)

/-- Runs a loop that has to end within a number of rounds. -/
def rounds {σ α : Type} (round : σ → Checked (Round σ α)) : Nat → σ → Checked α
  | 0, _ => .error .endless
  | n + 1, state => do
    match ← round state with
    | .again state => rounds round n state
    | .done answer => return answer

/-- A loop ends with the answer that its invariant fixes when every round that is not the last keeps the invariant
and brings the measure down. -/
theorem rounds_eq {σ α : Type} {round : σ → Checked (Round σ α)} {answer : α} (inv : σ → Prop) (left : σ → Nat)
    (hround : ∀ s, inv s → round s = .ok (.done answer) ∨
      ∃ s', round s = .ok (.again s') ∧ inv s' ∧ left s' < left s)
    {n : Nat} {s : σ} (hs : inv s) (hn : left s < n) : rounds round n s = .ok answer := by
  induction n generalizing s with
  | zero => exact absurd hn (Nat.not_lt_zero _)
  | succ n ih =>
    rw [rounds]
    rcases hround s hs with hdone | ⟨s', hagain, hs', hless⟩
    · rw [hdone]
      rfl
    · rw [hagain]
      exact ih hs' (by omega)

/-! ## Lists -/

section Lists
variable {α β : Type} {f : α → Checked β} {g : α → β} {xs : List α}

/-- Where a step fails on the bad elements only, going through a list fails when it has one. -/
theorem mapM_cases {bad : α → Prop} {fault : Fault}
    (h : ∀ x ∈ xs, ¬ bad x ∧ f x = .ok (g x) ∨ bad x ∧ f x = .error fault) :
    (∀ x ∈ xs, ¬ bad x) ∧ xs.mapM f = .ok (xs.map g) ∨ (∃ x ∈ xs, bad x) ∧ xs.mapM f = .error fault := by
  induction xs with
  | nil => exact .inl ⟨List.forall_mem_nil _, rfl⟩
  | cons x xs ih =>
    obtain ⟨hx, hxs⟩ := List.forall_mem_cons.1 h
    rw [List.mapM_cons]
    rcases hx with ⟨hgood, hx⟩ | ⟨hbad, hx⟩
    · rcases ih hxs with ⟨hall, hrest⟩ | ⟨⟨y, hy, hbad⟩, hrest⟩
      · exact .inl ⟨List.forall_mem_cons.2 ⟨hgood, hall⟩, by simp [hx, hrest]⟩
      · refine .inr ⟨⟨y, List.mem_cons_of_mem x hy, hbad⟩, ?_⟩
        rw [hx, hrest]
        rfl
    · refine .inr ⟨⟨x, List.mem_cons_self, hbad⟩, ?_⟩
      rw [hx]
      rfl

theorem mapM_ok (h : ∀ x ∈ xs, f x = .ok (g x)) : xs.mapM f = .ok (xs.map g) := by
  have hcases : (∀ x ∈ xs, ¬ False) ∧ xs.mapM f = .ok (xs.map g) ∨ (∃ x ∈ xs, False) ∧ xs.mapM f = .error .endless :=
    mapM_cases fun x hx => .inl ⟨id, h x hx⟩
  simpa using hcases

theorem anyM_ok {p : α → Checked Bool} {q : α → Bool} (h : ∀ x ∈ xs, p x = .ok (q x)) : xs.anyM p = .ok (xs.any q) := by
  induction xs with
  | nil => rfl
  | cons x xs ih =>
    obtain ⟨hx, hxs⟩ := List.forall_mem_cons.1 h
    rw [List.anyM_cons, hx, ok_bind, ih hxs, List.any_cons]
    cases q x <;> rfl

end Lists

end CoreForge.Text
