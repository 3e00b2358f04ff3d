import CoreForge.Number.Literal
/-!
# JSON texts

A text stands in quotes, and escapes stand for the characters that cannot be written
in it. Characters beyond the first 65536 are escaped as two halves; a half by itself
is no character.

Where something cannot be read it matters where reading stopped, because a part of a
document that does not count may be followed by parts that do. `Attempt` therefore
keeps, for a failure too, what is left of the text.
-/

namespace CoreForge.Json

open CoreForge.Number

/-- What comes of reading something from the start of a text: the thing and what follows
it, or what is left where reading stopped. -/
abbrev Attempt (α : Type) := Except (List Char) (α × List Char)

/-- The characters between tokens. -/
def isBlank (c : Char) : Bool := c = ' ' || c = '\t' || c = '\n' || c = '\r'

/-- The text without the blanks at its start. -/
def dropBlanks (cs : List Char) : List Char := cs.dropWhile isBlank

/-- The text without some bytes of UTF-8 at its start. A character that is not all of
them stays: nothing in a document starts inside a character. -/
def dropBytes : Nat → List Char → List Char
  | _, [] => []
  | n, c :: cs => if c.utf8Size ≤ n then dropBytes (n - c.utf8Size) cs else c :: cs

/-- The text without the byte at its start. -/
def dropByte (cs : List Char) : List Char := dropBytes 1 cs

/-- The character that a character after a backslash stands for. -/
def escaped? : Char → Option Char
  | '\x22' => some '\x22'
  | '\\' => some '\\'
  | '/' => some '/'
  | 'b' => some '\x08'
  | 'f' => some '\x0c'
  | 'n' => some '\n'
  | 'r' => some '\r'
  | 't' => some '\t'
  | _ => none

/-- The first half of a pair that stands for one character. -/
def isHighHalf (n : Nat) : Bool := 0xD800 ≤ n && n < 0xDC00

/-- The second half of such a pair. -/
def isLowHalf (n : Nat) : Bool := 0xDC00 ≤ n && n < 0xE000

/-- The character that two halves stand for. -/
def ofHalves (high low : Nat) : Char := Char.ofNat (0x10000 + (high - 0xD800) * 0x400 + (low - 0xDC00))

/-- Where the reader of a text stands. -/
inductive TextPlace
  | plain
  /-- Behind a backslash. -/
  | escape
  /-- Some hexadecimal digits of a character, or of its second half, are still to come. -/
  | digits (high : Option Nat) (left : Nat) (value : Nat)
  /-- Behind the first half of a character. -/
  | half (high : Nat)
  /-- Behind the first half of a character and a backslash. -/
  | halfEscape (high : Nat)

/-- Reads on in a text; `done` holds what was read, in reverse. -/
def textFrom (done : List Char) : TextPlace → List Char → Attempt String
  | _, [] => .error []
  | .plain, c :: cs =>
    if c = '\x22' then .ok (String.ofList done.reverse, cs)
    else if c = '\\' then textFrom done .escape cs
    else if c.toNat < 0x20 then .error cs
    else textFrom (c :: done) .plain cs
  | .escape, c :: cs =>
    if c = 'u' then textFrom done (.digits none 4 0) cs
    else
      match escaped? c with
      | some e => textFrom (e :: done) .plain cs
      | none => .error (dropByte (c :: cs))
  | .digits high left value, c :: cs =>
    match digitValue? c with
    | none => .error (dropBytes left (c :: cs))
    | some d =>
      let value := value * 16 + d
      if 1 < left then textFrom done (.digits high (left - 1) value) cs
      else
        match high with
        | some high => if isLowHalf value then textFrom (ofHalves high value :: done) .plain cs else .error cs
        | none =>
          if isLowHalf value then .error cs
          else if isHighHalf value then textFrom done (.half value) cs
          else textFrom (Char.ofNat value :: done) .plain cs
  | .half high, c :: cs =>
    if c = '\\' then textFrom done (.halfEscape high) cs else .error (dropByte (c :: cs))
  | .halfEscape high, c :: cs =>
    if c = 'u' then textFrom done (.digits (some high) 4 0) cs else .error (dropByte (c :: cs))

/-- Reads a text from behind its opening quote. -/
def text (cs : List Char) : Attempt String := textFrom [] .plain cs

/-- What follows a text, from behind its opening quote. Its escapes have to be well
formed, but need not stand for characters. -/
def afterText? : List Char → Option (List Char)
  | [] => none
  | '\x22' :: cs => some cs
  | '\\' :: 'u' :: a :: b :: c :: d :: cs => if [a, b, c, d].all isHexDigit then afterText? cs else none
  | '\\' :: e :: cs => if (escaped? e).isSome then afterText? cs else none
  | c :: cs => if c.toNat < 0x20 then none else afterText? cs

end CoreForge.Json
