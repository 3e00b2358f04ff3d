import CoreForge.Document.Shape
import CoreForge.Json.Number
/-!
# Reading JSON

A document is read from the start of a text by the shape that is expected of it. Every
reader answers what it read and what follows. A lenient part that cannot be read counts
as null, and reading goes on where it stopped in that part: the readers of a list and an
object still take the closing bracket, if that is what comes next.

Lists and objects may be nested to a limited depth, and the readers call each other as
deep; parts that do not count are passed over without a limit. The first argument of the
readers that call each other is fuel, of which the length of the text gives enough.
-/

namespace CoreForge.Json

/-! ## Documents of any shape -/

/-- Reads the rest of a word that is known by its first character. -/
def wordRest (d : Document) : List Char → List Char → Attempt Document
  | [], cs => .ok (d, cs)
  | _ :: _, [] => .error []
  | w :: ws, c :: cs => if c = w then wordRest d ws cs else .error (dropByte (c :: cs))

/-- Ends a list by taking its bracket. After a failure in the list the bracket is taken too
if it comes next, and else a comma and the blanks behind it. -/
def closeList (items : Attempt (List Document)) : Attempt Document :=
  let close (rest : List Char) : List Char :=
    match dropBlanks rest with
    | ']' :: cs => cs
    | ',' :: cs => dropBlanks cs
    | cs => cs
  match items with
  | .error rest => .error (close rest)
  | .ok (ds, rest) => .ok (.list ds, close rest)

/-- Ends an object by taking its bracket. After a failure in the object the bracket is taken
too if it comes next. -/
def closeObject (entries : Attempt (List (Key × Document))) : Attempt Document :=
  let close (rest : List Char) : List Char :=
    match dropBlanks rest with
    | '\x7d' :: cs => cs
    | cs => cs
  match entries with
  | .error rest => .error (close rest)
  | .ok (es, rest) => .ok (.object es, close rest)

/-- Finds the next item of a list: answers whether there is one and where it starts. -/
def nextItem (first : Bool) (cs : List Char) : Attempt Bool :=
  match dropBlanks cs with
  | [] => .error []
  | c :: cs =>
    if c = ']' then .ok (false, c :: cs)
    else if first then .ok (true, c :: cs)
    else if c = ',' then
      match dropBlanks cs with
      | [] => .error []
      | ']' :: cs => .error (']' :: cs)
      | cs => .ok (true, cs)
    else .error (c :: cs)

/-- Reads the key of an entry from behind its opening quote, with the colon after it. -/
def entryKey (cs : List Char) : Attempt String :=
  match text cs with
  | .error rest => .error rest
  | .ok (key, rest) =>
    match dropBlanks rest with
    | ':' :: cs => .ok (key, cs)
    | cs => .error cs

/-- Finds the next entry of an object and reads its key, if there is an entry. -/
def nextKey (first : Bool) (cs : List Char) : Attempt (Option String) :=
  let key (cs : List Char) : Attempt (Option String) :=
    match cs with
    | '\x22' :: cs =>
      match entryKey cs with
      | .ok (key, rest) => .ok (some key, rest)
      | .error rest => .error rest
    | cs => .error cs
  match dropBlanks cs with
  | '\x7d' :: cs => .ok (none, '\x7d' :: cs)
  | ',' :: cs => if first then .error (',' :: cs) else key (dropBlanks cs)
  | cs => if first then key cs else .error cs

mutual

/-- Reads a document that nests at most `room` deep. -/
def value : Nat → Nat → List Char → Attempt Document
  | 0, _, cs => .error cs
  | fuel + 1, room, cs =>
    match dropBlanks cs with
    | 'n' :: cs => wordRest .null ['u', 'l', 'l'] cs
    | 't' :: cs => wordRest (.bool true) ['r', 'u', 'e'] cs
    | 'f' :: cs => wordRest (.bool false) ['a', 'l', 's', 'e'] cs
    | '\x22' :: cs =>
      match text cs with
      | .ok (s, rest) => .ok (.text s, rest)
      | .error rest => .error rest
    | '[' :: cs =>
      match room with
      | 0 => .error ('[' :: cs)
      | room + 1 => closeList (items fuel room true [] cs)
    | '\x7b' :: cs =>
      match room with
      | 0 => .error ('\x7b' :: cs)
      | room + 1 => closeObject (entries fuel room true [] cs)
    | c :: cs => if c = '-' ∨ c.isDigit then number (c :: cs) else .error (c :: cs)
    | [] => .error []

/-- Reads the items of a list up to its closing bracket; `done` holds those before, in
reverse. -/
def items : Nat → Nat → Bool → List Document → List Char → Attempt (List Document)
  | 0, _, _, _, cs => .error cs
  | fuel + 1, room, first, done, cs =>
    match nextItem first cs with
    | .error rest => .error rest
    | .ok (false, rest) => .ok (done.reverse, rest)
    | .ok (true, rest) =>
      match value fuel room rest with
      | .error rest => .error rest
      | .ok (d, rest) => items fuel room false (d :: done) rest

/-- Reads the entries of an object up to its closing bracket; `done` holds those before,
in reverse. -/
def entries : Nat → Nat → Bool → List (Key × Document) → List Char → Attempt (List (Key × Document))
  | 0, _, _, _, cs => .error cs
  | fuel + 1, room, first, done, cs =>
    match nextKey first cs with
    | .error rest => .error rest
    | .ok (none, rest) => .ok (done.reverse, rest)
    | .ok (some key, rest) =>
      match value fuel room rest with
      | .error rest => .error rest
      | .ok (d, rest) => entries fuel room false ((.text key, d) :: done) rest

end

/-! ## Parts that do not count -/

/-- What follows a word, a number or a text. -/
def afterScalar? : List Char → Option (List Char)
  | 'n' :: 'u' :: 'l' :: 'l' :: cs => some cs
  | 't' :: 'r' :: 'u' :: 'e' :: cs => some cs
  | 'f' :: 'a' :: 'l' :: 's' :: 'e' :: cs => some cs
  | '\x22' :: cs => afterText? cs
  | '-' :: cs => afterNumber? cs
  | cs => afterNumber? cs
where
  afterNumber? (cs : List Char) : Option (List Char) :=
    let whole := cs.takeWhile Char.isDigit
    if whole = [] ∨ (whole.head? = some '0' ∧ whole ≠ ['0']) then none
    else
      match cs.dropWhile Char.isDigit with
      | '.' :: cs => if atDigit cs then afterExponent? (cs.dropWhile Char.isDigit) else none
      | cs => afterExponent? cs
  afterExponent? : List Char → Option (List Char)
    | [] => some []
    | c :: cs =>
      if c = 'e' ∨ c = 'E' then
        let cs :=
          match cs with
          | '-' :: cs => cs
          | '+' :: cs => cs
          | cs => cs
        if atDigit cs then some (cs.dropWhile Char.isDigit) else none
      else some (c :: cs)

/-- What follows the key of an entry and the colon after it. -/
def afterKey? (cs : List Char) : Option (List Char) :=
  match dropBlanks cs with
  | '\x22' :: cs =>
    match (afterText? cs).map dropBlanks with
    | some (':' :: cs) => some cs
    | _ => none
  | _ => none

/-- A list or an object. -/
inductive Bracket
  | list
  | object

/-- What follows a document. `inside` holds the brackets that are still open, and `done`
says that the innermost of them stands behind an item. Every step takes a character, so
the length of the text is enough fuel. -/
def afterValue? : Nat → Bool → List Bracket → List Char → Option (List Char)
  | 0, _, _, _ => none
  | _ + 1, true, [], cs => some cs
  | fuel + 1, true, .list :: inside, cs =>
    match dropBlanks cs with
    | ',' :: cs => afterValue? fuel false (.list :: inside) cs
    | ']' :: cs => afterValue? fuel true inside cs
    | _ => none
  | fuel + 1, true, .object :: inside, cs =>
    match dropBlanks cs with
    | ',' :: cs =>
      match afterKey? cs with
      | some cs => afterValue? fuel false (.object :: inside) cs
      | none => none
    | '\x7d' :: cs => afterValue? fuel true inside cs
    | _ => none
  | fuel + 1, false, inside, cs =>
    match dropBlanks cs with
    | '[' :: cs =>
      match dropBlanks cs with
      | ']' :: cs => afterValue? fuel true inside cs
      | cs => afterValue? fuel false (.list :: inside) cs
    | '\x7b' :: cs =>
      match dropBlanks cs with
      | '\x7d' :: cs => afterValue? fuel true inside cs
      | cs =>
        match afterKey? cs with
        | some cs => afterValue? fuel false (.object :: inside) cs
        | none => none
    | cs =>
      match afterScalar? cs with
      | some cs => afterValue? fuel true inside cs
      | none => none

/-! ## Documents of a shape -/

mutual

/-- Reads a document of a shape that nests at most `room` deep. -/
def shaped : Nat → Nat → Shape → List Char → Option (Document × List Char)
  | 0, _, _, _ => none
  | fuel + 1, room, shape, cs =>
    match shape, dropBlanks cs, room with
    | .any, cs, _ | .text, cs, _ | .choice, cs, _ => (value fuel room cs).toOption
    | .lenient, cs, _ =>
      match value fuel room cs with
      | .ok (d, rest) => some (d, rest)
      | .error rest => some (.null, rest)
    | .optional _, 'n' :: cs, _ => (wordRest .null ['u', 'l', 'l'] cs).toOption
    | .optional shape, cs, _ => shaped fuel room shape cs
    | .list item, '[' :: cs, room + 1 => shapedItems fuel room item true [] cs
    | .table value, '\x7b' :: cs, room + 1 => shapedEntries fuel room (fun _ => some value) true [] cs
    | .record layout, '\x7b' :: cs, room + 1 =>
      shapedEntries fuel room (fun key => (Layout.named? layout key).map (·.shape)) true [] cs
    | .record layout, '[' :: cs, room + 1 => shapedFields fuel room (layout.map (·.shape)) true [] cs
    | _, _, _ => none

/-- Reads the items of a list and its closing bracket. -/
def shapedItems : Nat → Nat → Shape → Bool → List Document → List Char → Option (Document × List Char)
  | 0, _, _, _, _, _ => none
  | fuel + 1, room, item, first, done, cs =>
    match nextItem first cs with
    | .error _ => none
    | .ok (false, rest) => some (.list done.reverse, rest.tail)
    | .ok (true, rest) =>
      match shaped fuel room item rest with
      | none => none
      | some (d, rest) => shapedItems fuel room item false (d :: done) rest

/-- Reads the fields of a record that is written as a list, and its closing bracket. -/
def shapedFields : Nat → Nat → List Shape → Bool → List Document → List Char → Option (Document × List Char)
  | 0, _, _, _, _, _ => none
  | fuel + 1, room, fields, first, done, cs =>
    match nextItem first cs, fields with
    | .ok (false, rest), _ => some (.list done.reverse, rest.tail)
    | .ok (true, rest), field :: fields =>
      match shaped fuel room field rest with
      | none => none
      | some (d, rest) => shapedFields fuel room fields false (d :: done) rest
    | _, _ => none

/-- Reads the entries of an object and its closing bracket. Entries without a shape are
passed over. -/
def shapedEntries : Nat → Nat → (String → Option Shape) → Bool → List (Key × Document) → List Char →
    Option (Document × List Char)
  | 0, _, _, _, _, _ => none
  | fuel + 1, room, shapeOf, first, done, cs =>
    match nextKey first cs with
    | .error _ => none
    | .ok (none, rest) => some (.object done.reverse, rest.tail)
    | .ok (some key, rest) =>
      match shapeOf key with
      | none =>
        match afterValue? (rest.length + 1) false [] rest with
        | none => none
        | some rest => shapedEntries fuel room shapeOf false done rest
      | some shape =>
        match shaped fuel room shape rest with
        | none => none
        | some (d, rest) => shapedEntries fuel room shapeOf false ((.text key, d) :: done) rest

end

/-- The nesting of lists and objects that is read. -/
def room : Nat := 127

/-- Reads a text that holds one document of a shape. -/
def read? (shape : Shape) (s : String) : Option Document :=
  let cs := s.toList
  match shaped (2 * cs.length + 2) room shape cs with
  | some (d, rest) => if dropBlanks rest = [] then some d else none
  | none => none

end CoreForge.Json
