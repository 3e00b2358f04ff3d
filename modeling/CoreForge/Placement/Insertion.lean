import CoreForge.Failure
import CoreForge.Placement.Placed
/-!
# Inserting an item

A new item is placed right after or right before another one. Items in the way
are pushed on, each just as far as needed and none past another, until the first
one that need not move. Nothing is changed when that is not possible.
-/

namespace CoreForge

open CoreForge.Number

/-- The axis that items lie on. Bits of a register are limited, addresses are not. -/
structure Axis where
  /-- The first position that is no longer on the axis. -/
  limit : Option UInt64
deriving DecidableEq, Repr

namespace Axis

/-- An axis that ends. -/
def bounded (limit : UInt64) : Axis := ⟨some limit⟩

/-- An axis that does not end. -/
def unbounded : Axis := ⟨none⟩

/-- An item may end there. -/
def fits (a : Axis) (stop : UInt64) : Bool :=
  match a.limit with
  | some limit => stop ≤ limit
  | none => true

end Axis

/-- What an insertion gives. A refused one gives the items that it was given, and no
position of a new one. -/
structure Insertion (α : Type) where
  items : List α
  newIndex : Option Nat
  error : Option Refusal
deriving DecidableEq, Repr

namespace Insertion

variable {α : Type}

/-- The items with a new one among them, at a position. -/
def done (items : List α) (index : Nat) : Insertion α := ⟨items, some index, none⟩

/-- The items as they were. -/
def failed (items : List α) (reason : Refusal) : Insertion α := ⟨items, none, some reason⟩

def isOk (r : Insertion α) : Bool := r.error.isNone

variable {items ys zs : List α} {i j : Nat} {e f : Refusal}

@[simp]
theorem done_inj : done ys i = done zs j ↔ ys = zs ∧ i = j := by simp [done]

@[simp]
theorem failed_inj : failed ys e = failed zs f ↔ ys = zs ∧ e = f := by simp [failed]

@[simp]
theorem failed_ne_done : failed items e ≠ done ys i := by simp [failed, done]

@[simp]
theorem done_ne_failed : done ys i ≠ failed items e := by simp [failed, done]

end Insertion

namespace Placed

variable {α : Type} [Placed α]

/-- The items sorted by start, each with its position in the list. Items with the
same start keep their order. -/
def arranged (items : List α) : List (α × Nat) :=
  items.zipIdx.mergeSort fun x y => start x.1 ≤ start y.1

/-- The items sorted by start, divided at a selected one: those before it, itself,
and those after it. -/
def divide? (items : List α) (selected : Nat) : Option (List α × α × List α) :=
  let sorted := arranged items
  let before := sorted.takeWhile fun x => x.2 ≠ selected
  match sorted.dropWhile fun x => x.2 ≠ selected with
  | [] => none
  | x :: after => some (before.map (·.1), x.1, after.map (·.1))

/-- Moves items forward so that none starts before a position. -/
def pushForward (axis : Axis) : UInt64 → List α → Option (List α)
  | _, [] => some []
  | free, x :: xs =>
    if free ≤ start x then some (x :: xs)
    else
      let stop := addSat free (footprint x)
      if axis.fits stop then (pushForward axis stop xs).map (moveTo x free :: ·) else none

/-- Moves items, given from the last to the first, backward so that none ends after
a position. -/
def pushBackward : UInt64 → List α → Option (List α)
  | _, [] => some []
  | free, x :: xs =>
    if stop x ≤ free then some (x :: xs)
    else
      match sub? free (footprint x) with
      | some start => (pushBackward start xs).map (moveTo x start :: ·)
      | none => none

/-- Inserts a new item right after the selected one, or after the last one of the
list when none is selected. -/
def insertAfter (items : List α) (selected : Option Nat) (axis : Axis) : Insertion α :=
  let fresh : α := create (nextName items) 0
  match items with
  | [] =>
    match selected with
    | some index => .failed items (.invalidSelection index)
    | none => if axis.fits (footprint fresh) then .done [fresh] 0 else .failed items .outOfBounds
  | _ :: others =>
    let index := selected.getD others.length
    match divide? items index with
    | none => .failed items (.invalidSelection index)
    | some (before, reference, after) =>
      let free := stop reference
      if axis.fits (addSat free (footprint fresh)) then
        let fresh := moveTo fresh free
        match pushForward axis (stop fresh) after with
        | some after => .done (before ++ reference :: fresh :: after) (before.length + 1)
        | none => .failed items .outOfBounds
      else .failed items .outOfBounds

/-- Inserts a new item right before the selected one. -/
def insertBefore (items : List α) (selected : Option Nat) : Insertion α :=
  match selected with
  | none => .failed items .noSelection
  | some index =>
    match divide? items index with
    | none => .failed items (.invalidSelection index)
    | some (before, reference, after) =>
      let fresh : α := create (nextName items) 0
      match sub? (start reference) (footprint fresh) with
      | none => .failed items .negativeOffset
      | some free =>
        match pushBackward free before.reverse with
        | some before' => .done (before'.reverse ++ moveTo fresh free :: reference :: after) before.length
        | none => .failed items .occupied

end Placed

/-! ## The three kinds of items -/

/-- Inserts a field into a register of a given width, after another one. -/
def insertFieldAfter (fields : List FieldDecl) (selected : Option Nat) (width : UInt32) : Insertion FieldDecl :=
  Placed.insertAfter fields selected (.bounded (clamp64 width.toNat))

/-- Inserts a field into a register, before another one. -/
def insertFieldBefore (fields : List FieldDecl) (selected : Option Nat) : Insertion FieldDecl :=
  Placed.insertBefore fields selected

/-- Inserts a register after another one. -/
def insertRegisterAfter (registers : List RegisterDecl) (selected : Option Nat) : Insertion RegisterDecl :=
  Placed.insertAfter registers selected .unbounded

/-- Inserts a register before another one. -/
def insertRegisterBefore (registers : List RegisterDecl) (selected : Option Nat) : Insertion RegisterDecl :=
  Placed.insertBefore registers selected

/-- Inserts an address block after another one. -/
def insertBlockAfter (blocks : List AddressBlock) (selected : Option Nat) : Insertion AddressBlock :=
  Placed.insertAfter blocks selected .unbounded

/-- Inserts an address block before another one. -/
def insertBlockBefore (blocks : List AddressBlock) (selected : Option Nat) : Insertion AddressBlock :=
  Placed.insertBefore blocks selected

end CoreForge
