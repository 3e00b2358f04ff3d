import CoreForge.Text.Ascii
/-!
# Characters at their places

Layout matters in YAML, so its characters are read together with the line and
the column they stand in. Line breaks are unified on the way: a carriage return,
alone or before a line feed, and the next-line character become a line feed.
-/

namespace CoreForge.Yaml

/-- A character with its place in the text. -/
structure Mark where
  char : Char
  line : Nat
  column : Nat
  /-- The number of bytes of UTF-8 before it. -/
  index : Nat
deriving Repr

/-- A space or a tab. -/
def isBlank (c : Char) : Bool := c = ' ' || c = '\t'

/-- A line break; the line and paragraph separators are kept as they are. -/
def isBreak (c : Char) : Bool := c = '\n' || c = '\u2028' || c = '\u2029'

/-- A character that a YAML text may contain. -/
def isAllowed (c : Char) : Bool :=
  let n := c.toNat
  n = 9 || n = 10 || n = 13 || (0x20 ≤ n && n ≤ 0x7E) || n = 0x85 || (0xA0 ≤ n && n ≤ 0xFFFD) || 0x10000 ≤ n

/-- A byte order mark, which may stand at the start of a line. -/
def isByteOrderMark (c : Char) : Bool := c = '\uFEFF'

/-- The characters at their places, from a place on. `done` holds those before, in
reverse. -/
def Mark.listFrom (done : List Mark) (line column index : Nat) : List Char → List Mark
  | [] => done.reverse
  | '\r' :: '\n' :: cs => listFrom (⟨'\n', line, column, index⟩ :: done) (line + 1) 0 (index + 2) cs
  | c :: cs =>
    let next := index + c.utf8Size
    if c = '\r' ∨ c = '\u0085' then listFrom (⟨'\n', line, column, index⟩ :: done) (line + 1) 0 next cs
    else if isBreak c then listFrom (⟨c, line, column, index⟩ :: done) (line + 1) 0 next cs
    else listFrom (⟨c, line, column, index⟩ :: done) line (column + 1) next cs

/-- The characters of a text at their places; none when one of them is not allowed. -/
def Mark.list? (s : String) : Option (List Mark) :=
  let cs := s.toList
  if cs.all isAllowed then some (Mark.listFrom [] 0 0 0 cs) else none

/-- Nothing, a blank or a line break comes next. -/
def atBlank : List Mark → Bool
  | [] => true
  | m :: _ => isBlank m.char || isBreak m.char

/-- A line starts with three dashes or three dots that stand alone. -/
def atDocumentMarker : List Mark → Bool
  | a :: b :: c :: rest =>
    a.column = 0 && a.char = b.char && b.char = c.char && (a.char = '-' || a.char = '.') && atBlank rest
  | _ => false

/-- What blanks and line breaks inside a scalar stand for: blanks alone for
themselves, one line break for a space, and of several all but the first. After a
break that was escaped, every further one stands for itself. -/
def foldGap (escapedBreak : Bool) (gap : List Char) : List Char :=
  let breaks := gap.filter isBreak
  if escapedBreak then breaks
  else
    match breaks with
    | [] => gap
    | '\n' :: [] => [' ']
    | '\n' :: more => more
    | breaks => breaks

end CoreForge.Yaml
