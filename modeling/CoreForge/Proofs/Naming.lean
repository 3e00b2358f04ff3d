import CoreForge.Proofs.Editing
import CoreForge.Proofs.Searching
/-!
# The names of new items

A new item is named by the kind and a number. `highest` is the largest number that a name
of the kind ends in, read in any spelling; a new name ends in the next one, so no item has
it, and it is the highest of the items then. `Editor.names_distinct`: distinct names stay
distinct over any insertions, as long as the numbers fit a word.
-/

namespace CoreForge

open CoreForge.Number CoreForge.Text

namespace Placed

/-! ## The number in a name -/

section Numbers
variable {α : Type} [Placed α]

theorem plainWord?_toDigits {n : Nat} (hn : n ≤ max64) : plainWord? (Nat.toDigits 10 n) = some (clamp64 n) := by
  have hall : (Nat.toDigits 10 n).all Char.isDigit = true := List.all_eq_true.2 (isDigit_toDigits n)
  rw [plainWord?, if_pos hall, digitsWord?_toDigits hn]

/-- A name that is made of the kind and a number ends in that number. -/
theorem suffix?_numbered {n : Nat} (hn : n ≤ max64) : suffix? α (kind α ++ toString n) = some (clamp64 n) := by
  have hrest : afterStart? (kind α).toList (kind α ++ toString n).toList = some (Nat.toDigits 10 n) := by
    rw [afterStart?_eq_some_iff, String.toList_append, Nat.toString_eq_ofList_toDigits, String.toList_ofList]
  have hword := plainWord?_toDigits hn
  have hdigit := isDigit_toDigits n
  unfold suffix?
  rw [hrest, Option.bind_eq_bind, Option.bind_some]
  -- A number is printed without a sign.
  split
  · rename_i ds hplus
    rw [hplus] at hdigit
    exact absurd (hdigit '+' (by simp)) (by decide)
  · exact hword

/-- The largest number that a name of the kind ends in, 0 when there is none. -/
def highest (items : List α) : Nat :=
  ((items.filterMap fun x => (suffix? α (name x)).map UInt64.toNat).max?).getD 0

/-- Below the largest word, the next number is the next one. -/
theorem nextName_eq {items : List α} (h : highest items < max64) :
    nextName items = kind α ++ toString (highest items + 1) := by
  have hword : (wrap64 (highest items + 1)).toNat = highest items + 1 := by
    rw [toNat_wrap64, Nat.mod_eq_of_lt (by omega)]
  calc nextName items = kind α ++ toString (wrap64 (highest items + 1)).toNat := rfl
    _ = kind α ++ toString (highest items + 1) := by rw [hword]

/-- Behind the largest word, the numbers start again. -/
example : nextName [RegisterDecl.ofOffset "reg18446744073709551615" 0] = "reg0" := by cbv

theorem le_highest {items : List α} {s : String} {n : UInt64} (hs : s ∈ items.map name)
    (hn : suffix? α s = some n) : n.toNat ≤ highest items := by
  obtain ⟨x, hx, rfl⟩ := List.mem_map.1 hs
  refine List.le_max?_getD_of_mem (List.mem_filterMap.2 ⟨x, hx, ?_⟩)
  rw [hn, Option.map_some]

theorem highest_le {items : List α} {m : Nat}
    (h : ∀ s ∈ items.map name, ∀ n, suffix? α s = some n → n.toNat ≤ m) : highest items ≤ m := by
  unfold highest
  cases hmax : (items.filterMap fun x => (suffix? α (name x)).map UInt64.toNat).max? with
  | none => exact Nat.zero_le m
  | some k =>
    obtain ⟨x, hx, hk⟩ := List.mem_filterMap.1 (List.max?_eq_some_iff.1 hmax).1
    obtain ⟨n, hn, rfl⟩ := Option.map_eq_some_iff.1 hk
    exact h (name x) (List.mem_map_of_mem hx) n hn

/-- No name ends in the largest word when the highest number is below it. -/
theorem highest_lt_max64 {items : List α} (h : ∀ x ∈ items, suffix? α (name x) ≠ some (clamp64 max64)) :
    highest items < max64 := by
  refine Nat.lt_of_le_of_lt (highest_le (m := max64 - 1) fun s hs n hn => ?_) (by decide)
  obtain ⟨x, hx, rfl⟩ := List.mem_map.1 hs
  have hne : n.toNat ≠ max64 := by
    intro heq
    rw [← clamp64_toNat n, heq] at hn
    exact h x hx hn
  have := toNat_le_max64 n
  omega

theorem nextName_not_mem {items : List α} (h : highest items < max64) : nextName items ∉ items.map name := by
  intro hmem
  rw [nextName_eq h] at hmem
  have hle := le_highest hmem (suffix?_numbered h)
  rw [toNat_clamp64] at hle
  omega

end Numbers

/-! ## What an insertion does to the names -/

/-- Items that are called what they are created as, and keep their name at another place. -/
class Named (α : Type) [Placed α] : Prop where
  name_create (s : String) (n : UInt64) : name (create s n : α) = s
  name_moveTo (x : α) (n : UInt64) : name (moveTo x n) = name x

section Names
variable {α : Type} [Placed α] [Named α]

theorem name_fresh (items : List α) : name (fresh items) = nextName items := Named.name_create _ _

theorem PushedForward.map_name {axis : Axis} {free : UInt64} {xs ys : List α} (h : PushedForward axis free xs ys) :
    ys.map name = xs.map name := by
  induction h with
  | nil => rfl
  | stay _ => rfl
  | move _ _ _ ih => rw [List.map_cons, List.map_cons, ih, Named.name_moveTo]

theorem PushedBackward.map_name {free : UInt64} {xs ys : List α} (h : PushedBackward free xs ys) :
    ys.map name = xs.map name := by
  induction h with
  | nil => rfl
  | stay _ => rfl
  | move _ _ _ ih => rw [List.map_cons, List.map_cons, ih, Named.name_moveTo]

/-- A successful insertion adds one name. -/
theorem insert_names {axis : Axis} {side : Side} {items ys : List α} {selected : Option Nat} {index : Nat}
    (h : insert axis side items selected = .done ys index) : (ys.map name).Perm (nextName items :: items.map name) := by
  have hperm := (inOrder_perm items).map name
  cases side with
  | after =>
    rcases insertAfter_done h with ⟨rfl, -, -, rfl, -⟩ | ⟨before, ref, after, after', -, horder, -, hpush, rfl, -⟩
    · simp only [List.map_cons, List.map_nil, name_fresh, List.Perm.refl]
    · rw [horder] at hperm
      refine List.Perm.trans ?_ (hperm.cons _)
      simp only [List.map_append, List.map_cons, Named.name_moveTo, name_fresh, hpush.map_name]
      have hmiddle : ((before.map name ++ [name ref]) ++ nextName items :: after.map name).Perm
          (nextName items :: ((before.map name ++ [name ref]) ++ after.map name)) := List.perm_middle
      simpa only [List.append_assoc, List.cons_append, List.nil_append] using hmiddle
  | before =>
    obtain ⟨before, ref, after, before', free, -, -, horder, -, hpush, rfl, -⟩ := insertBefore_done h
    have hnames : before'.map name = before.map name := by
      have := hpush.map_name
      rwa [List.map_reverse, List.map_reverse, List.reverse_inj] at this
    rw [horder] at hperm
    refine List.Perm.trans ?_ (hperm.cons _)
    simp only [List.map_append, List.map_cons, Named.name_moveTo, name_fresh, hnames]
    exact List.perm_middle

/-- The new number is the only one that can be higher than those before. -/
theorem highest_insert {axis : Axis} {side : Side} {items ys : List α} {selected : Option Nat} {index : Nat}
    (h : insert axis side items selected = .done ys index) (hroom : highest items < max64) :
    highest ys ≤ highest items + 1 := by
  refine highest_le fun s hs n hn => ?_
  rcases List.mem_cons.1 ((insert_names h).subset hs) with rfl | hs
  · rw [nextName_eq hroom, suffix?_numbered hroom, Option.some.injEq] at hn
    rw [← hn, toNat_clamp64]
    exact Nat.min_le_left _ _
  · exact Nat.le_succ_of_le (le_highest hs hn)

theorem nodup_insert {axis : Axis} {side : Side} {items ys : List α} {selected : Option Nat} {index : Nat}
    (h : insert axis side items selected = .done ys index) (hroom : highest items < max64)
    (hdistinct : (items.map name).Nodup) : (ys.map name).Nodup :=
  (insert_names h).nodup_iff.2 (List.nodup_cons.2 ⟨nextName_not_mem hroom, hdistinct⟩)

end Names

end Placed

/-! ## Runs -/

namespace Editor

open Placed

/-- A request to insert an item on some axis. -/
structure Request extends Step where
  axis : Axis

section Attempts
variable {α : Type} [Placed α]

/-- The answer to a request. -/
def Request.answer (q : Request) (items : List α) : Insertion α := insert q.axis q.side items q.selected

/-- The items after a request, which are those of the answer. -/
def attempt (items : List α) (q : Request) : List α := (q.answer items).items

/-- The items after some requests. -/
def attempts (items : List α) (requests : List Request) : List α := requests.foldl attempt items

/-- How many items some requests create. -/
def created : List α → List Request → Nat
  | _, [] => 0
  | items, q :: requests => (if (q.answer items).isOk then 1 else 0) + created (attempt items q) requests

/-- Distinct names stay distinct while the numbers in new names fit a word. -/
theorem nodup_attempts [Named α] (items : List α) (requests : List Request) (hdistinct : (items.map name).Nodup)
    (hroom : highest items + created items requests ≤ max64) : ((attempts items requests).map name).Nodup := by
  induction requests generalizing items with
  | nil => exact hdistinct
  | cons q requests ih =>
    rw [attempts, List.foldl_cons, ← attempts]
    rw [created] at hroom
    rcases insert_cases q.axis q.side items q.selected with ⟨ys, index, hinsert⟩ | ⟨e, hinsert⟩
    · have hanswer : q.answer items = .done ys index := hinsert
      have hattempt : attempt items q = ys := by rw [attempt, hanswer]; rfl
      have hok : (q.answer items).isOk = true := by rw [hanswer]; rfl
      rw [hattempt, if_pos hok] at hroom
      rw [hattempt]
      have hlt : highest items < max64 := by omega
      have hhighest := highest_insert hinsert hlt
      exact ih ys (nodup_insert hinsert hlt hdistinct) (by omega)
    · have hattempt : attempt items q = items := by
        rw [attempt, Request.answer, hinsert]
        rfl
      rw [hattempt] at hroom ⊢
      exact ih items hdistinct (by omega)

end Attempts

instance (d : Domain) : Named d.Item where
  name_create s n := by cases d <;> rfl
  name_moveTo x n := by
    cases d with
    | fields width => exact (FieldDecl.attributes_setOffset x _).1
    | registers => rfl
    | blocks => rfl

/-- Where no name ends in the largest word the next name is new, and names that are distinct
stay so over any requests that create fewer items than it takes to get to that word. -/
theorem names_distinct (d : Domain) (items : List d.Item) (hdistinct : (items.map (name ·)).Nodup)
    (hfree : ∀ x ∈ items, suffix? d.Item (name x) ≠ some (clamp64 max64)) :
    nextName items ∉ items.map (name ·) ∧
      ∀ requests : List Request, highest items + created items requests < max64 →
        ((attempts items requests).map (name ·)).Nodup := by
  have hroom := highest_lt_max64 hfree
  refine ⟨nextName_not_mem hroom, fun requests hcreated => ?_⟩
  exact nodup_attempts items requests hdistinct (Nat.le_of_lt hcreated)

/-- Names that share a number but not its spelling, and requests on registers of different
widths of which the second one is refused. -/
theorem names_distinct_spellings :
    let items : List FieldDecl := [.ofSpan "field07" 0 2, .ofSpan "field+7" 4 1, .ofSpan "fieldx" 6 1]
    let requests : List Request :=
      [⟨⟨.after, some 0⟩, .bounded 8⟩, ⟨⟨.after, none⟩, .bounded 7⟩, ⟨⟨.before, some 2⟩, .unbounded⟩]
    nextName items = "field8" ∧ created items requests = 2 ∧
      (attempts items requests).map (name ·) = ["field07", "field8", "field9", "field+7", "fieldx"] ∧
      ((attempts items requests).map (name ·)).Nodup := by
  intro items requests
  have hcreated : created items requests = 2 := by cbv
  have hhighest : highest items = 7 := by cbv
  have hfree : ∀ x ∈ items, suffix? FieldDecl (name x) ≠ some (clamp64 max64) := by decide
  have h := names_distinct (.fields 32) items (by decide) hfree
  refine ⟨by cbv, hcreated, by cbv, h.2 requests ?_⟩
  change highest items + created items requests < max64
  rw [hcreated, hhighest]
  decide

end Editor

end CoreForge
