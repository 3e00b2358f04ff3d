import CoreForge.Document.Shape
/-!
# Records

How the parts of a document become the fields of a record. A record is a mapping
from field names to values; a field may have several names, of which at most one
may be given, and what stands under unknown names does not matter. A record may also
be written as a list of its fields in order, of which those at the end may be left
out.

A reader answers `none` when the document does not fit; it never says why, because a
message about a malformed document names only the document.
-/

namespace CoreForge

namespace Document

/-! ## Readers for the parts of a record -/

/-- A text. -/
def readText : Document → Option String
  | .text s => some s
  | _ => none

/-- A value or null. -/
def readOpt (read : Document → Option α) : Document → Option (Option α)
  | .null => some none
  | d => (read d).map some

/-- A list of values. -/
def readList (read : Document → Option α) : Document → Option (List α)
  | .list items => items.mapM read
  | _ => none

/-- A choice among names: a name, or a mapping from it to null. -/
def readChoice (ofName? : String → Option α) : Document → Option α
  | .text s => ofName? s
  | .object [(.text s, .null)] => ofName? s
  | _ => none

/-- A mapping from texts to values, as pairs in the order of the document. -/
def readPairs (read : Document → Option α) : Document → Option (List (String × α))
  | .object entries =>
    entries.mapM fun (k, d) =>
      match k with
      | .text s => (read d).map fun x => (s, x)
      | _ => none
  | _ => none

end Document

/-- The fields that a document gives, by their main names. -/
structure Record where
  given : List (String × Document)

namespace Record

/-- The fields that the entries of a mapping give. -/
def givenBy (layout : Layout) (entries : List (Key × Document)) : List (String × Document) :=
  entries.filterMap fun (k, d) => (layout.field? k).map fun f => (f.name, d)

/-- The document as a record. -/
def ofDocument? (layout : Layout) : Document → Option Record
  | .object entries =>
    let given := givenBy layout entries
    if entries.all (·.1 ≠ .other) ∧ (given.map (·.1)).Nodup then some ⟨given⟩ else none
  | .list items =>
    if items.length ≤ layout.length then some ⟨(layout.map (·.name)).zip items⟩ else none
  | _ => none

/-- What is given for a field. -/
def get? (record : Record) (name : String) : Option Document := record.given.lookup name

/-- Reads a field that any document fits. -/
def value (record : Record) (name : String) (default : α) (read : Document → α) : α :=
  match record.get? name with
  | none => default
  | some d => read d

/-- Reads a field, which has a default when it is not given. -/
def field (record : Record) (name : String) (default : α) (read : Document → Option α) : Option α :=
  match record.get? name with
  | none => some default
  | some d => read d

/-! ## Fields of common types -/

/-- A text field, empty when it is not given. -/
def text (record : Record) (name : String) : Option String := record.field name "" Document.readText

/-- An optional text field. -/
def optText (record : Record) (name : String) : Option (Option String) :=
  record.field name none (Document.readOpt Document.readText)

/-- A list field, empty when it is not given. -/
def list (record : Record) (name : String) (read : Document → Option α) : Option (List α) :=
  record.field name [] (Document.readList read)

end Record

end CoreForge
