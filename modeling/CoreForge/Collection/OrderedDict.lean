import Std.Data.HashMap
/-!
# Dictionaries in insertion order

A dictionary that remembers the order in which its keys were first inserted. The
entries are an array; an index maps every key to its position there, so that a
look-up does not search.
-/

namespace CoreForge

/-- A dictionary that keeps its keys in the order of their first insertion. -/
structure OrderedDict (α β : Type) [BEq α] [Hashable α] where
  /-- The position of every key among the entries. -/
  index : Std.HashMap α Nat
  entries : Array (α × β)

namespace OrderedDict

variable {α β : Type} [BEq α] [Hashable α]

/-- The dictionary without entries. -/
def empty : OrderedDict α β := ⟨∅, #[]⟩

/-- The dictionary has an entry for the key. -/
def contains (d : OrderedDict α β) (k : α) : Bool := d.index.contains k

/-- The value of a key. -/
def get? (d : OrderedDict α β) (k : α) : Option β := do
  let i ← d.index[k]?
  let e ← d.entries[i]?
  some e.2

/-- Sets the value of a key, which keeps its place if it has one. -/
def insert (d : OrderedDict α β) (k : α) (v : β) : OrderedDict α β :=
  match d.index[k]? with
  | some i => { d with entries := d.entries.modify i fun e => (e.1, v) }
  | none => ⟨d.index.insert k d.entries.size, d.entries.push (k, v)⟩

/-- Changes the value of a key, which starts from a default. -/
def update (d : OrderedDict α β) (k : α) (default : β) (f : β → β) : OrderedDict α β :=
  d.insert k (f ((d.get? k).getD default))

/-- The position of the entry of a key, where an entry with a default is made for a new key. -/
def entry (d : OrderedDict α β) (k : α) (default : β) : OrderedDict α β × Nat :=
  match d.index[k]? with
  | some i => (d, i)
  | none =>
    let d := d.insert k default
    (d, d.entries.size - 1)

/-- Changes the value at a position. -/
def modifyAt (d : OrderedDict α β) (i : Nat) (f : β → β) : OrderedDict α β :=
  { d with entries := d.entries.modify i fun e => (e.1, f e.2) }

/-- The entries in order of insertion. -/
def toList (d : OrderedDict α β) : List (α × β) := d.entries.toList

/-- The number of keys. -/
def size (d : OrderedDict α β) : Nat := d.entries.size

/-- The dictionary has no entries. -/
def isEmpty (d : OrderedDict α β) : Bool := d.entries.isEmpty

/-- The first of the entries with the largest count. -/
def firstMax? : List (α × Nat) → Option (α × Nat)
  | [] => none
  | e :: es => some (es.foldl (fun best e => if best.2 < e.2 then e else best) e)

/-- The key with the largest count; of several, the one inserted first. -/
def maxCount? (d : OrderedDict α Nat) : Option (α × Nat) := firstMax? d.toList

end OrderedDict

end CoreForge
