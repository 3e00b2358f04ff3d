import Mathlib.Order.Lattice
/-!
# Scans that remember one element

A scan goes through a list with one element in mind and judges every element by that one. What
every step keeps holds of the element that a verdict comes from (`getElem?_scan`). The element
in mind is the largest one so far, and the first one of several: `FirstLargest`.
-/

namespace CoreForge

/-! ## The first of the largest -/

section Largest
variable {α κ : Type} [LinearOrder κ] {key : α → κ} {xs : List α} {e : α}

/-- The one of two elements with the larger key, and the first one when neither is larger. -/
def larger (key : α → κ) (a b : α) : α := if key a < key b then b else a

/-- All elements before this one have smaller keys, and none after it has a larger one. -/
def FirstLargest (key : α → κ) (xs : List α) (e : α) : Prop :=
  ∃ front back, xs = front ++ e :: back ∧ (∀ x ∈ front, key x < key e) ∧ ∀ x ∈ back, key x ≤ key e

theorem FirstLargest.mem (h : FirstLargest key xs e) : e ∈ xs := by
  obtain ⟨front, back, rfl, -, -⟩ := h
  simp

theorem FirstLargest.key_le (h : FirstLargest key xs e) : ∀ x ∈ xs, key x ≤ key e := by
  obtain ⟨front, back, rfl, hfront, hback⟩ := h
  intro x hx
  rcases List.mem_append.1 hx with hx | hx
  · exact le_of_lt (hfront x hx)
  · rcases List.mem_cons.1 hx with rfl | hx
    · exact le_refl _
    · exact hback x hx

theorem FirstLargest.unique {e' : α} (h : FirstLargest key xs e) (h' : FirstLargest key xs e') : e = e' := by
  have hle := h.key_le e' h'.mem
  have hge := h'.key_le e h.mem
  obtain ⟨front, back, rfl, hfront, -⟩ := h
  obtain ⟨front', back', hsplit, hfront', -⟩ := h'
  rcases List.append_eq_append_iff.1 hsplit with ⟨between, rfl, heq⟩ | ⟨between, rfl, heq⟩
  · cases between with
    | nil => exact (List.cons.inj heq).1
    | cons x between =>
      cases heq
      exact absurd (hfront' e (by simp)) (not_lt_of_ge hle)
  · cases between with
    | nil => exact (List.cons.inj heq).1.symm
    | cons x between =>
      cases heq
      exact absurd (hfront e' (by simp)) (not_lt_of_ge hge)

theorem FirstLargest.concat (h : FirstLargest key xs e) (x : α) : FirstLargest key (xs ++ [x]) (larger key e x) := by
  unfold larger
  split
  · rename_i hlt
    refine ⟨xs, [], rfl, ?_, by simp⟩
    intro y hy
    exact lt_of_le_of_lt (h.key_le y hy) hlt
  · rename_i hge
    obtain ⟨front, back, rfl, hfront, hback⟩ := h
    refine ⟨front, back ++ [x], by simp, hfront, ?_⟩
    intro y hy
    rcases List.mem_append.1 hy with hy | hy
    · exact hback y hy
    · rw [List.mem_singleton.1 hy]
      exact le_of_not_gt hge

theorem FirstLargest.foldl (h : FirstLargest key xs e) (ys : List α) :
    FirstLargest key (xs ++ ys) (ys.foldl (larger key) e) := by
  induction ys generalizing xs e with
  | nil => simpa using h
  | cons y ys ih =>
    have hrest := ih (h.concat y)
    rwa [List.append_assoc] at hrest

theorem firstLargest_foldl (x : α) (xs : List α) : FirstLargest key (x :: xs) (xs.foldl (larger key) x) := by
  have hone : FirstLargest key [x] x := ⟨[], [], rfl, by simp, by simp⟩
  exact hone.foldl xs

/-! ## One element in mind -/

/-- What is in mind after one more element. -/
def keepLarger (key : α → κ) : Option α → α → α
  | none, x => x
  | some e, x => larger key e x

/-- The element in mind is the first of the largest before, if there are any. -/
def InMind (key : α → κ) (earlier : List α) : Option α → Prop
  | none => earlier = []
  | some e => FirstLargest key earlier e

theorem InMind.step (earlier : List α) (mind : Option α) (h : InMind key earlier mind) (x : α) :
    InMind key (earlier ++ [x]) (some (keepLarger key mind x)) := by
  cases mind with
  | none =>
    have hnil : earlier = [] := h
    exact ⟨[], [], by rw [hnil]; rfl, by simp, by simp⟩
  | some e => exact FirstLargest.concat h x

end Largest

/-! ## Scans -/

section Scan
variable {α β : Type}

/-- What a scan says about each element. -/
def scan (judge : Option α → α → β) (keep : Option α → α → α) (mind : Option α) : List α → List β
  | [] => []
  | x :: xs => judge mind x :: scan judge keep (some (keep mind x)) xs

variable {judge : Option α → α → β} {keep : Option α → α → α}

theorem length_scan (mind : Option α) (xs : List α) : (scan judge keep mind xs).length = xs.length := by
  induction xs generalizing mind with
  | nil => rfl
  | cons x xs ih => rw [scan, List.length_cons, List.length_cons, ih]

theorem getElem?_scan {P : List α → Option α → Prop}
    (hstep : ∀ earlier mind, P earlier mind → ∀ x, P (earlier ++ [x]) (some (keep mind x))) {earlier : List α}
    {mind : Option α} (h : P earlier mind) (xs : List α) (k : Nat) :
    ∃ m, P (earlier ++ xs.take k) m ∧ (scan judge keep mind xs)[k]? = xs[k]?.map (judge m) := by
  induction xs generalizing earlier mind k with
  | nil => exact ⟨mind, by simpa using h, by simp [scan]⟩
  | cons x xs ih =>
    cases k with
    | zero => exact ⟨mind, by simpa using h, by simp [scan]⟩
    | succ k =>
      obtain ⟨m, hm, hget⟩ := ih (hstep _ _ h x) k
      refine ⟨m, ?_, ?_⟩
      · rw [List.take_succ_cons]
        simpa using hm
      · simpa [scan] using hget

/-- A relation between all elements and the later ones is one between each and those before it. -/
theorem pairwise_iff_take {R : α → α → Prop} {xs : List α} :
    xs.Pairwise R ↔ ∀ (k : Nat) (x : α), xs[k]? = some x → ∀ e ∈ xs.take k, R e x := by
  rw [List.pairwise_iff_getElem]
  constructor
  · intro h k x hx e he
    obtain ⟨hk, rfl⟩ := List.getElem?_eq_some_iff.1 hx
    obtain ⟨j, hj, rfl⟩ := List.mem_take_iff_getElem.1 he
    exact h j k (by omega) hk (by omega)
  · intro h j k hj hk hlt
    apply h k xs[k] (List.getElem?_eq_getElem hk)
    exact List.mem_take_iff_getElem.2 ⟨j, by omega, rfl⟩

end Scan

end CoreForge
