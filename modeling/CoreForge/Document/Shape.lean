import CoreForge.Document.Basic
/-!
# Shapes of documents

How each part of a document is to be read. Most parts are read for what they say.
A text takes a scalar as it is written, whatever the scalar would denote by itself,
and a lenient part counts as null where it cannot be read, so that the parts around
it can still be used. A notation reads a text by the shape of the document that is
expected; `Schema` joins such a shape with the meaning of the documents that come
of it.
-/

namespace CoreForge

/-- A field of a record: its main name, other names it may be given by, and how its
value is read. -/
structure Field (σ : Type) where
  name : String
  aliases : List String
  shape : σ
deriving Repr, Inhabited

/-- How a part of a document is read. -/
inductive Shape
  /-- Anything. -/
  | any
  /-- Anything; what cannot be read is null. -/
  | lenient
  /-- A text. -/
  | text
  /-- One of some names. -/
  | choice
  /-- Null, or something of another shape. -/
  | optional (shape : Shape)
  /-- A list of items. -/
  | list (item : Shape)
  /-- A mapping from texts to values. -/
  | table (value : Shape)
  /-- A mapping from the names of fields to their values, or a list of the values. What
  is under other names is passed over. -/
  | record (fields : List (Field Shape))
deriving Inhabited

/-- The fields of a record in their order. -/
abbrev Layout := List (Field Shape)

namespace Layout

/-- The field of a name. -/
def named? (layout : Layout) (name : String) : Option (Field Shape) :=
  layout.find? fun f => f.name = name || f.aliases.contains name

/-- The field that a key names. -/
def field? (layout : Layout) : Key → Option (Field Shape)
  | .text s => layout.named? s
  | .place n => layout[n]?
  | .other => none

end Layout

/-- How documents of one kind are read, and what they mean. A document that fits the
shape may still mean nothing. -/
structure Schema (α : Type) where
  shape : Shape
  decode : Document → Option α

namespace Schema

/-- Records of one kind. -/
def record (layout : Layout) (decode : Document → Option α) : Schema α := ⟨.record layout, decode⟩

/-- Lists of documents of one kind. -/
def list (schema : Schema α) : Schema (List α) where
  shape := .list schema.shape
  decode
    | .list items => items.mapM schema.decode
    | _ => none

end Schema

end CoreForge
