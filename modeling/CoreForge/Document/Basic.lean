import CoreForge.Number.Binary64
/-!
# Documents

What a text says before it is read as a record. Both notations, JSON and YAML,
produce the same tree, and every record is read from it and written to it.

Entries keep the order and the repetitions of the text.
-/

namespace CoreForge

/-- What names an entry of a mapping. -/
inductive Key
  /-- A text. -/
  | text (s : String)
  /-- A whole number, which names a field of a record by its place. -/
  | place (n : Nat)
  /-- Anything else, which names nothing. -/
  | other
deriving DecidableEq, Repr, Inhabited

/-- A document tree. -/
inductive Document
  | null
  | bool (b : Bool)
  /-- A whole number that fits 64 bits, with or without a sign. -/
  | int (n : Int)
  | float (x : Float)
  | text (s : String)
  | list (items : List Document)
  | object (entries : List (Key × Document))
deriving Repr, Inhabited

namespace Document

mutual

/-- The nesting of lists and mappings. -/
def depth : Document → Nat
  | .list items => depthList items + 1
  | .object entries => depthEntries entries + 1
  | _ => 0

/-- The deepest nesting of some documents. -/
def depthList : List Document → Nat
  | [] => 0
  | d :: ds => max d.depth (depthList ds)

/-- The deepest nesting of some entries. -/
def depthEntries : List (Key × Document) → Nat
  | [] => 0
  | (_, d) :: es => max d.depth (depthEntries es)

end

/-- An entry with a text for its key. -/
def entry (name : String) (d : Document) : Key × Document := (.text name, d)

/-- An entry that is left out when there is nothing to write. -/
def entryIf (present : Bool) (name : String) (d : Document) : List (Key × Document) :=
  if present then [entry name d] else []

/-- An entry for a value that may be absent. -/
def entryOpt (name : String) (encode : α → Document) : Option α → List (Key × Document)
  | some x => [entry name (encode x)]
  | none => []

/-- The absent value is written as null. -/
def orNull (encode : α → Document) : Option α → Document
  | some x => encode x
  | none => .null

end Document

end CoreForge
