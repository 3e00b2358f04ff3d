import Mathlib
import CoreForge.Proofs.FieldMoves
import CoreForge.Proofs.Insertion
/-!
# Runs of the editor

The three kinds of items obey the laws of placed items, and after any sequence of
insertions, successful or refused, the items are sound; each success did what an
insertion should, and each refusal gave back the items: `Editor.run_sound`.
-/

namespace CoreForge

open CoreForge.Number

/-! ## The laws for fields, registers and address blocks -/

namespace FieldDecl

/-- The span of a field that is moved to a place where it fits, in the words of the axis. -/
theorem span_moveTo {f : FieldDecl} {s : UInt64} (hpos : 0 < Placed.footprint f)
    (hfit : addSat s (Placed.footprint f) ≤ clamp64 max32) :
    (clamp32 s.toNat).toNat = s.toNat ∧ (Placed.moveTo f s).span = ⟨clamp32 s.toNat, f.span.width⟩ := by
  have hfoot : (Placed.footprint f).toNat = f.span.width.toNat := toNat_clamp64_word32 _
  rw [UInt64.lt_iff_toNat_lt, hfoot, UInt64.toNat_zero] at hpos
  rw [UInt64.le_iff_toNat_le, toNat_addSat, hfoot, toNat_clamp64] at hfit
  have hlt := max32_lt_max64
  have hs : (clamp32 s.toNat).toNat = s.toNat := by
    rw [toNat_clamp32]
    omega
  exact ⟨hs, span_setOffset hpos (by omega)⟩

theorem start_le_max32 (f : FieldDecl) : Placed.start f ≤ clamp64 max32 := by
  have := toNat_le_max32 f.span.offset
  change clamp64 f.span.offset.toNat ≤ clamp64 max32
  rw [UInt64.le_iff_toNat_le, toNat_clamp64, toNat_clamp64]
  omega

/-- A field without the numbers of its place. It keeps that it has a notation. -/
def bare (f : FieldDecl) : FieldDecl :=
  { f with bits := f.bits.map fun _ => "", bitOffset := none, bitWidth := none }

theorem bare_setOffset (f : FieldDecl) (o : UInt32) : (f.setOffset o).bare = f.bare := by
  have hmoved : (f.movedBits o).map (fun _ => "") = f.bits.map fun _ => "" := by
    rw [movedBits, Option.map_map]
    rfl
  rcases f.setOffset_cases o with ⟨-, -, h⟩ | ⟨-, h⟩
  · rw [h, bare, bare, hmoved]
  · rw [h, bare, bare, hmoved]

end FieldDecl

instance : Placed.Lawful FieldDecl where
  ceiling := clamp64 max32
  freshSize := 1
  bare := FieldDecl.bare
  start_le_ceiling := FieldDecl.start_le_max32
  start_moveTo f s hpos hfit := by
    obtain ⟨hs, hspan⟩ := FieldDecl.span_moveTo hpos hfit
    change clamp64 (Placed.moveTo f s).span.offset.toNat = s
    rw [hspan, hs, clamp64_toNat]
  footprint_moveTo f s hpos hfit := by
    obtain ⟨-, hspan⟩ := FieldDecl.span_moveTo hpos hfit
    change clamp64 (Placed.moveTo f s).span.width.toNat = clamp64 f.span.width.toNat
    rw [hspan]
  bare_moveTo f s := FieldDecl.bare_setOffset f _
  start_create name := rfl
  footprint_create name s := rfl
  freshSize_pos := by decide

theorem RegisterDecl.footprint_pos (r : RegisterDecl) : 0 < r.footprint := by
  unfold footprint
  split
  · simp only
    split
    · assumption
    · decide
  · decide

instance : Placed.Lawful RegisterDecl where
  ceiling := clamp64 max64
  freshSize := wordBytes
  bare r := { r with offset := 0 }
  start_le_ceiling r := le_clamp64_max64 _
  start_moveTo r s _ _ := rfl
  footprint_moveTo r s _ _ := rfl
  bare_moveTo r s := rfl
  start_create name := rfl
  footprint_create name s := rfl
  freshSize_pos := by decide

theorem AddressBlock.footprint_pos (b : AddressBlock) : 0 < b.footprint := by
  unfold footprint
  simp only
  split
  · assumption
  · split
    · decide
    · rename_i hregisters
      have hlen : 0 < b.registers.length := by
        rw [List.length_pos_iff]
        simpa using hregisters
      have hword : wordBytes.toNat = 4 := rfl
      rw [UInt64.lt_iff_toNat_lt, UInt64.toNat_zero, toNat_mulSat, toNat_clamp64, hword, max64]
      omega

instance : Placed.Lawful AddressBlock where
  ceiling := clamp64 max64
  freshSize := defaultBlockRange
  bare b := { b with baseAddress := 0 }
  start_le_ceiling b := le_clamp64_max64 _
  start_moveTo b s _ _ := rfl
  footprint_moveTo b s _ _ := rfl
  bare_moveTo b s := rfl
  start_create name := rfl
  footprint_create name s := rfl
  freshSize_pos := by decide

/-! ## Runs -/

namespace Editor

open Placed

/-- The kinds of items that are edited; fields belong to a register of some width. -/
inductive Domain
  | fields (width : UInt32)
  | registers
  | blocks

namespace Domain

def Item : Domain → Type
  | .fields _ => FieldDecl
  | .registers => RegisterDecl
  | .blocks => AddressBlock

instance (d : Domain) : Placed d.Item :=
  match d with
  | .fields _ => inferInstanceAs (Placed FieldDecl)
  | .registers => inferInstanceAs (Placed RegisterDecl)
  | .blocks => inferInstanceAs (Placed AddressBlock)

instance (d : Domain) : Lawful d.Item :=
  match d with
  | .fields _ => inferInstanceAs (Lawful FieldDecl)
  | .registers => inferInstanceAs (Lawful RegisterDecl)
  | .blocks => inferInstanceAs (Lawful AddressBlock)

/-- The axis of the items. -/
def axis : Domain → Axis
  | .fields width => .bounded (clamp64 width.toNat)
  | _ => .unbounded

/-- Where items may end that ended at or below a limit before some of them were added:
within the register for fields, and on the endless axes at most as much further as the
new items are large. -/
def bound (d : Domain) (limit added : Nat) : Nat :=
  match d with
  | .fields width => width.toNat
  | d => limit + added * (Lawful.freshSize d.Item).toNat

end Domain

/-- A request to insert an item. -/
structure Step where
  side : Side
  selected : Option Nat

/-- What the editor answers to a request. -/
def answer (d : Domain) (items : List d.Item) (s : Step) : Insertion d.Item :=
  match d, items, s with
  | .fields width, items, ⟨.after, selected⟩ => insertFieldAfter items selected width
  | .fields _, items, ⟨.before, selected⟩ => insertFieldBefore items selected
  | .registers, items, ⟨.after, selected⟩ => insertRegisterAfter items selected
  | .registers, items, ⟨.before, selected⟩ => insertRegisterBefore items selected
  | .blocks, items, ⟨.after, selected⟩ => insertBlockAfter items selected
  | .blocks, items, ⟨.before, selected⟩ => insertBlockBefore items selected

/-- The items after a request, which are those of the answer. -/
def next (d : Domain) (items : List d.Item) (s : Step) : List d.Item := (answer d items s).items

/-- The items after some requests. -/
def run (d : Domain) (items : List d.Item) (steps : List Step) : List d.Item := steps.foldl (next d) items

/-- How many of some requests succeed. -/
def added (d : Domain) : List d.Item → List Step → Nat
  | _, [] => 0
  | items, s :: steps => (if (answer d items s).isOk then 1 else 0) + added d (next d items s) steps

/-- A request does what an insertion should, or it is refused and changes nothing. -/
def Heeded (d : Domain) (items : List d.Item) (s : Step) : Prop :=
  (∃ ys index, answer d items s = .done ys index ∧ Inserted s.side items s.selected ys index) ∨
    ∃ e, answer d items s = .failed items e

theorem added_cons (d : Domain) (items : List d.Item) (s : Step) (steps : List Step) :
    added d items (s :: steps) = added d items [s] + added d (next d items s) steps := rfl

theorem answer_eq (d : Domain) (items : List d.Item) (s : Step) :
    answer d items s = insert d.axis s.side items s.selected := by
  obtain ⟨side, selected⟩ := s
  cases d <;> cases side <;> rfl

theorem suits_axis (d : Domain) : Suits d.axis d.Item := by
  intro s h
  cases d with
  | fields width =>
    have hle : s ≤ clamp64 width.toNat := by simpa [Domain.axis, Axis.bounded, Axis.fits] using h
    have := toNat_le_max32 width
    change s ≤ clamp64 max32
    rw [UInt64.le_iff_toNat_le, toNat_clamp64] at *
    omega
  | registers => exact le_clamp64_max64 s
  | blocks => exact le_clamp64_max64 s

/-- On an endless axis the bound makes room for what is added; that of a register stays. -/
theorem bound_succ (d : Domain) (limit n : Nat) :
    (∃ width, d = .fields width) ∨ d.bound limit (n + 1) = d.bound limit n + (Lawful.freshSize d.Item).toNat := by
  cases d with
  | fields width => exact .inl ⟨width, rfl⟩
  | registers =>
    right
    simp only [Domain.bound, Nat.succ_mul]
    omega
  | blocks =>
    right
    simp only [Domain.bound, Nat.succ_mul]
    omega

/-- An item fits on the axis of a register exactly when it stops within the register. -/
theorem fits_fields_iff {width : UInt32} {x : (Domain.fields width).Item} :
    (Domain.fields width).axis.fits (stop x) = true ↔ reach x ≤ width.toNat := by
  have := toNat_le_max32 width
  have := max32_lt_max64
  simp only [Domain.axis, Axis.bounded, Axis.fits, decide_eq_true_eq]
  rw [UInt64.le_iff_toNat_le, toNat_stop, toNat_clamp64]
  omega

theorem answer_cases (d : Domain) (items : List d.Item) (s : Step) :
    (∃ ys index, answer d items s = .done ys index) ∨ ∃ e, answer d items s = .failed items e := by
  rw [answer_eq]
  exact insert_cases d.axis s.side items s.selected

/-- One successful insertion. -/
theorem answer_sound {d : Domain} {limit n index : Nat} {items ys : List d.Item} {s : Step}
    (hsound : Sound (d.bound limit n) items) (hroom : d.bound limit (n + 1) ≤ max64)
    (h : answer d items s = .done ys index) :
    Inserted s.side items s.selected ys index ∧ Sound (d.bound limit (n + 1)) ys := by
  rw [answer_eq] at h
  rcases bound_succ d limit n with ⟨width, rfl⟩ | hsucc
  · have hsound : Sound width.toNat items := hsound
    have hwidth : width.toNat + 1 ≤ max64 := Nat.lt_of_le_of_lt (toNat_le_max32 width) max32_lt_max64
    obtain ⟨hins, hnew, hfits⟩ := insert_sound (suits_axis (.fields width)) hsound hwidth h
    have hwithin := hfits fun a ha => fits_fields_iff.2 (hsound.within a ha)
    exact ⟨hins, hnew.occupied, hnew.apart, fun b hb => fits_fields_iff.1 (hwithin b hb)⟩
  · rw [hsucc] at hroom ⊢
    obtain ⟨hins, hnew, -⟩ := insert_sound (suits_axis d) hsound hroom h
    exact ⟨hins, hnew⟩

/-- The bound grows with what is added. -/
theorem bound_mono (d : Domain) (limit : Nat) {m n : Nat} (h : m ≤ n) : d.bound limit m ≤ d.bound limit n := by
  cases d with
  | fields width => exact Nat.le_refl _
  | registers => exact Nat.add_le_add_left (Nat.mul_le_mul_right _ h) _
  | blocks => exact Nat.add_le_add_left (Nat.mul_le_mul_right _ h) _

/-- One request, successful or refused. -/
theorem next_sound {d : Domain} {limit n : Nat} {items : List d.Item} {s : Step}
    (hsound : Sound (d.bound limit n) items) (hroom : d.bound limit (n + added d items [s]) ≤ max64) :
    Sound (d.bound limit (n + added d items [s])) (next d items s) ∧ Heeded d items s := by
  rcases answer_cases d items s with ⟨ys, index, hanswer⟩ | ⟨e, hanswer⟩
  · have hadded : added d items [s] = 1 := by rw [added, hanswer]; rfl
    have hnext : next d items s = ys := by rw [next, hanswer]; rfl
    rw [hadded] at hroom ⊢
    rw [hnext]
    obtain ⟨hins, hnew⟩ := answer_sound hsound hroom hanswer
    exact ⟨hnew, .inl ⟨ys, index, hanswer, hins⟩⟩
  · have hadded : added d items [s] = 0 := by rw [added, hanswer]; rfl
    have hnext : next d items s = items := by rw [next, hanswer]; rfl
    rw [hadded, hnext]
    exact ⟨hsound, .inr ⟨e, hanswer⟩⟩

/-- What a run preserves and does, from items to which some were added before. -/
theorem run_sound_from (d : Domain) (limit n : Nat) (items : List d.Item) (steps : List Step)
    (hsound : Sound (d.bound limit n) items) (hroom : d.bound limit (n + added d items steps) ≤ max64) :
    Sound (d.bound limit (n + added d items steps)) (run d items steps) ∧
      ∀ done s rest, steps = done ++ s :: rest → Heeded d (run d items done) s := by
  induction steps generalizing items n with
  | nil => exact ⟨hsound, by simp⟩
  | cons s steps ih =>
    rw [added_cons, ← Nat.add_assoc] at hroom ⊢
    have hone := Nat.le_trans (bound_mono d limit (Nat.le_add_right _ _)) hroom
    obtain ⟨hnext, hheeded⟩ := next_sound hsound hone
    obtain ⟨hend, hsteps⟩ := ih _ _ hnext hroom
    refine ⟨hend, fun done t rest hsplit => ?_⟩
    -- A request is the first one, or one of the run from where the first one led.
    cases done with
    | nil =>
      obtain ⟨rfl, -⟩ := List.cons.inj hsplit
      exact hheeded
    | cons u done =>
      obtain ⟨rfl, hrest⟩ := List.cons.inj hsplit
      exact hsteps done t rest hrest

/-- Of any requests to edit sound items, each one does what an insertion should or changes
nothing, and the items stay sound, as long as there is room for the new ones. -/
theorem run_sound (d : Domain) (limit : Nat) (items : List d.Item) (steps : List Step)
    (hsound : Sound (d.bound limit 0) items) (hroom : d.bound limit (added d items steps) ≤ max64) :
    Sound (d.bound limit (added d items steps)) (run d items steps) ∧
      ∀ done s rest, steps = done ++ s :: rest → Heeded d (run d items done) s := by
  have h := run_sound_from d limit 0 items steps hsound
  rw [Nat.zero_add] at h
  exact h hroom

/-- Two registers given in the wrong order, with no room between them, and three
requests of which the second one is refused. -/
theorem run_sound_crowded :
    let b : RegisterDecl := { RegisterDecl.ofOffset "b" 4 with count := some 2, stride := some 4 }
    let steps : List Step := [⟨.after, some 1⟩, ⟨.before, some 0⟩, ⟨.after, none⟩]
    added .registers [b, .ofOffset "a" 0] steps = 2 ∧
      Sound 20 (run .registers [b, .ofOffset "a" 0] steps) ∧
      (run .registers [b, .ofOffset "a" 0] steps).map (start ·) = [0, 4, 8, 16] := by
  intro b steps
  have hadded : added .registers [b, .ofOffset "a" 0] steps = 2 := by cbv
  have hsound : Sound (Domain.registers.bound 12 0) ([b, .ofOffset "a" 0] : List RegisterDecl) := by
    refine ⟨by decide, ?_, by decide⟩
    exact List.pairwise_pair.2 (apart_of_reach (by decide : reach (RegisterDecl.ofOffset "a" 0) ≤ 4)).symm
  have hrun := run_sound .registers 12 [b, .ofOffset "a" 0] steps hsound (by rw [hadded]; decide)
  rw [hadded] at hrun
  exact ⟨hadded, hrun.1, by cbv⟩

end Editor

end CoreForge
