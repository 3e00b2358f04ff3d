import CoreForge.Document.Basic
import CoreForge.Number.Shortest
/-!
# Writing JSON

Two layouts: on one line without blanks, and with an indentation of two. Numbers
that are no numbers are written as null, since JSON has no word for them, and a positive
exponent has a sign.
-/

namespace CoreForge.Json

open CoreForge.Number

/-- A hexadecimal digit in lower case. -/
def hexDigit (n : Nat) : Char := if n < 10 then Char.ofNat ('0'.toNat + n) else Char.ofNat ('a'.toNat + n - 10)

/-- A character as it stands between quotes. -/
def escape (c : Char) : List Char :=
  if c = '\x22' then ['\\', '\x22']
  else if c = '\\' then ['\\', '\\']
  else if c = '\x08' then ['\\', 'b']
  else if c = '\x0c' then ['\\', 'f']
  else if c = '\n' then ['\\', 'n']
  else if c = '\r' then ['\\', 'r']
  else if c = '\t' then ['\\', 't']
  else if c.toNat < 0x20 then ['\\', 'u', '0', '0', hexDigit (c.toNat / 16), hexDigit (c.toNat % 16)]
  else [c]

/-- A text in quotes. -/
def quote (s : String) : String := "\"" ++ String.ofList (s.toList.flatMap escape) ++ "\""

/-- The text of a key. -/
def keyText : Key → String
  | .text s => quote s
  | .place n => quote (toString n)
  | .other => quote ""

/-- The text of a scalar. -/
def scalar : Document → String
  | .bool b => if b then "true" else "false"
  | .int n => toString n
  | .float x => if isFinite x then documentText "+" x else "null"
  | .text s => quote s
  | _ => "null"

mutual

/-- A document on one line. -/
def compact : Document → String
  | .list items => "[" ++ ",".intercalate (compactList items) ++ "]"
  | .object entries => "\x7b" ++ ",".intercalate (compactEntries entries) ++ "\x7d"
  | d => scalar d

/-- The items of a list. -/
def compactList : List Document → List String
  | [] => []
  | d :: ds => compact d :: compactList ds

/-- The entries of an object. -/
def compactEntries : List (Key × Document) → List String
  | [] => []
  | (k, d) :: es => (keyText k ++ ":" ++ compact d) :: compactEntries es

end

/-- A line break and an indentation. -/
def newline (indent : Nat) : String := "\n" ++ String.ofList (List.replicate indent ' ')

mutual

/-- A document over several lines, in a column. -/
def prettyAt (indent : Nat) : Document → String
  | .list [] => "[]"
  | .list items =>
    "[" ++ newline (indent + 2) ++ ("," ++ newline (indent + 2)).intercalate (prettyList (indent + 2) items) ++
      newline indent ++ "]"
  | .object [] => "\x7b\x7d"
  | .object entries =>
    "\x7b" ++ newline (indent + 2) ++
      ("," ++ newline (indent + 2)).intercalate (prettyEntries (indent + 2) entries) ++ newline indent ++ "\x7d"
  | d => scalar d

/-- The items of a list, in a column. -/
def prettyList (indent : Nat) : List Document → List String
  | [] => []
  | d :: ds => prettyAt indent d :: prettyList indent ds

/-- The entries of an object, in a column. -/
def prettyEntries (indent : Nat) : List (Key × Document) → List String
  | [] => []
  | (k, d) :: es => (keyText k ++ ": " ++ prettyAt indent d) :: prettyEntries indent es

end

/-- A document over several lines. -/
def pretty (d : Document) : String := prettyAt 0 d

end CoreForge.Json
