import CoreForge.Yaml.Event
import CoreForge.Yaml.Scalar
import CoreForge.Document.Shape
/-!
# Reading YAML

A document is read from the events of a text by the shape that is expected of it. A text
takes the source of a plain scalar whatever it looks like; only where any value may stand
is it asked what a plain scalar denotes. Where a text holds a list, a mapping or a record,
an empty plain scalar is an empty one.

A lenient part that cannot be read counts as null, and reading goes on behind the event
that it failed at. The rest of that part is then taken for what was to follow it, so that
the end of a mapping in it ends the record around it, and what follows the document is
left unread.

Lists and mappings may be nested to a limited depth, and the readers call each other as
deep; parts that do not count are passed over without a limit. The first argument of the
readers that call each other is fuel, of which the number of events gives enough.
-/

namespace CoreForge.Yaml

/-- What comes of reading something from the first of some events: the thing and the events
behind it, or the events behind the one that it failed at. -/
abbrev Attempt (α : Type) := Except (List Event) (α × List Event)

/-! ## Documents of any shape -/

/-- The key that a document is. A whole number names a place unless it is written with a
minus sign, which `signed` says. -/
def keyOf (signed : Bool) : Document → Key
  | .text s => .text s
  | .int n => if signed then .other else .place n.toNat
  | _ => .other

/-- A plain scalar with a minus sign comes next. -/
def atSigned : List Event → Bool
  | .plain source :: _ => source.toList.head? = some '-'
  | _ => false

mutual

/-- Reads a document that nests at most `room` deep. -/
def value : Nat → Nat → List Event → Attempt Document
  | 0, _, es => .error es
  | fuel + 1, room, es =>
    match es with
    | .plain source :: es =>
      match denote? source with
      | some d => .ok (d, es)
      | none => .error es
    | .text s :: es => .ok (.text s, es)
    | .listStart :: es =>
      match room with
      | 0 => .error es
      | room + 1 => items fuel room [] es
    | .mapStart :: es =>
      match room with
      | 0 => .error es
      | room + 1 => entries fuel room [] es
    | _ => .error es

/-- Reads the items of a list and its end; `done` holds those before, in reverse. -/
def items : Nat → Nat → List Document → List Event → Attempt Document
  | 0, _, _, es => .error es
  | fuel + 1, room, done, es =>
    match es with
    | .listEnd :: es => .ok (.list done.reverse, es)
    | es =>
      match value fuel room es with
      | .error es => .error es
      | .ok (d, es) => items fuel room (d :: done) es

/-- Reads the entries of a mapping and its end; `done` holds those before, in reverse. -/
def entries : Nat → Nat → List (Key × Document) → List Event → Attempt Document
  | 0, _, _, es => .error es
  | fuel + 1, room, done, es =>
    match es with
    | .mapEnd :: es => .ok (.object done.reverse, es)
    | es =>
      match value fuel room es with
      | .error rest => .error rest
      | .ok (k, rest) =>
        match value fuel room rest with
        | .error rest => .error rest
        | .ok (d, rest) => entries fuel room ((keyOf (atSigned es) k, d) :: done) rest

end

/-! ## Documents of a shape -/

/-- The events behind a part that starts `depth` collections further out. -/
def afterPart? : Nat → List Event → Option (List Event)
  | _, [] => none
  | depth, e :: es =>
    match e with
    | .listStart | .mapStart => afterPart? (depth + 1) es
    | .listEnd | .mapEnd =>
      match depth with
      | 0 => none
      | 1 => some es
      | depth + 1 => afterPart? depth es
    | _ => if depth = 0 then some es else afterPart? depth es

/-- The text that a scalar is written with. -/
def source? : List Event → Option (String × List Event)
  | .plain source :: es => some (source, es)
  | .text s :: es => some (s, es)
  | _ => none

mutual

/-- Reads a document of a shape that nests at most `room` deep. -/
def shaped : Nat → Nat → Shape → List Event → Option (Document × List Event)
  | 0, _, _, _ => none
  | fuel + 1, room, shape, es =>
    match shape with
    | .any => (value fuel room es).toOption
    | .lenient =>
      match value fuel room es with
      | .ok (d, es) => some (d, es)
      | .error es => some (.null, es)
    | .text | .choice => (source? es).map fun (s, es) => (.text s, es)
    | .optional shape =>
      match es with
      | .plain source :: rest =>
        if isNull source.toList then some (.null, rest) else shaped fuel room shape es
      | _ => shaped fuel room shape es
    | .list item =>
      match es, room with
      | .plain "" :: es, _ => some (.list [], es)
      | .listStart :: es, room + 1 => shapedItems fuel room item [] es
      | _, _ => none
    | .table value =>
      match es, room with
      | .plain "" :: es, _ => some (.object [], es)
      | .mapStart :: es, room + 1 => shapedEntries fuel room (fun _ => some value) [] es
      | _, _ => none
    | .record layout =>
      match es, room with
      | .plain "" :: es, _ => some (.object [], es)
      | .mapStart :: es, room + 1 =>
        shapedEntries fuel room (fun key => (Layout.named? layout key).map (·.shape)) [] es
      | _, _ => none

/-- Reads the items of a list and its end. -/
def shapedItems : Nat → Nat → Shape → List Document → List Event → Option (Document × List Event)
  | 0, _, _, _, _ => none
  | fuel + 1, room, item, done, es =>
    match es with
    | .listEnd :: es => some (.list done.reverse, es)
    | es =>
      match shaped fuel room item es with
      | none => none
      | some (d, es) => shapedItems fuel room item (d :: done) es

/-- Reads the entries of a mapping and its end. Entries without a shape are passed over. -/
def shapedEntries : Nat → Nat → (String → Option Shape) → List (Key × Document) → List Event →
    Option (Document × List Event)
  | 0, _, _, _, _ => none
  | fuel + 1, room, shapeOf, done, es =>
    match es with
    | .mapEnd :: es => some (.object done.reverse, es)
    | es =>
      match source? es with
      | none => none
      | some (key, es) =>
        match shapeOf key with
        | none =>
          match afterPart? 0 es with
          | none => none
          | some es => shapedEntries fuel room shapeOf done es
        | some shape =>
          match shaped fuel room shape es with
          | none => none
          | some (d, es) => shapedEntries fuel room shapeOf ((.text key, d) :: done) es

end

/-- The nesting of lists and mappings that is read. -/
def room : Nat := 128

/-- Reads a text that holds one document of a shape. -/
def read? (shape : Shape) (s : String) : Option Document := do
  let tokens ← tokens? s
  let events ← Event.ofTokens? tokens
  let (d, _) ← shaped (2 * events.length + 2) room shape events
  some d

end CoreForge.Yaml
