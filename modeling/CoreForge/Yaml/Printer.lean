import CoreForge.Yaml.Mark
import CoreForge.Yaml.Scalar
import CoreForge.Number.Shortest
/-!
# Writing YAML

Documents are written in block notation, with an indentation of two; a list
behind a key is not indented further. Empty lists and mappings are written as `[]`
and as a pair of braces.

A text is written plainly where it reads back as the same text. It is put in single
quotes where it would read back as something else, written as a block where it has
several lines, and put in double quotes where it holds what only an escape can
write.
-/

namespace CoreForge.Yaml

open CoreForge.Number CoreForge.Text

/-! ## Styles of a text -/

/-- How a text is written. -/
inductive Style
  | plain
  | single
  | double
  | block
deriving DecidableEq, Repr

/-- A character that is written as it is. -/
def isPrintable (c : Char) : Bool :=
  let n := c.toNat
  n = 10 || (0x20 ≤ n && n ≤ 0x7E) || (0xA0 ≤ n && n ≤ 0xFFFD && n ≠ 0xFEFF) || 0x10000 ≤ n

/-- Nothing, a blank or a line break comes next. -/
def blankAhead : List Char → Bool
  | [] => true
  | c :: _ => isBlank c || isBreak c

/-- The text starts with a character that has a meaning of its own there. -/
def startsMeaningful : List Char → Bool
  | [] => false
  | c :: cs =>
    c ∈ [',', '[', ']', '\x7b', '\x7d', '&', '*', '!', '|', '>', '\x27', '\x22', '%', '@', '\x60'] ||
      ((c = '?' || c = '-') && blankAhead cs)

/-- The text holds a colon that would end a key, or a sign that would start a
comment; `before` is the character before it. -/
def holdsMeaningful (before : Char) : List Char → Bool
  | [] => false
  | c :: cs =>
    (c = ':' && blankAhead cs) || (c = '#' && (isBlank before || isBreak before)) || holdsMeaningful c cs

/-- Two neighbouring characters have the given properties. -/
def hasNeighbours (p q : Char → Bool) (cs : List Char) : Bool :=
  (cs.zip cs.tail).any fun (c, d) => p c && q d

/-- The text starts or ends with a space or a line break. -/
def hasBlankEnds (cs : List Char) : Bool :=
  let blank (c : Option Char) : Bool := (c.map fun c => c = ' ' || isBreak c).getD false
  blank cs.head? || blank cs.getLast?

/-- The text can be written without quotes. -/
def allowsPlain (cs : List Char) : Bool :=
  cs.all (fun c => isPrintable c && !isBreak c) && !hasBlankEnds cs && !startsMeaningful cs &&
    !holdsMeaningful ' ' cs && (afterStart? "---".toList cs).isNone && (afterStart? "...".toList cs).isNone

/-- The text can be written in single quotes. -/
def allowsSingle (cs : List Char) : Bool :=
  cs.all isPrintable && !hasNeighbours (· = ' ') isBreak cs && !hasNeighbours isBreak (· = ' ') cs

/-- The text can be written as a block. -/
def allowsBlock (cs : List Char) : Bool :=
  cs.all isPrintable && !hasNeighbours (· = ' ') isBreak cs && cs.getLast? ≠ some ' '

/-- The text would be read as a value of another type. -/
def readsAsOther (s : String) : Bool :=
  isZeroPadded s.toList ||
    match denote? s with
    | some (.text _) => false
    | _ => true

/-- The style in which a text is written. -/
def Style.of (s : String) : Style :=
  let cs := s.toList
  if cs.contains '\n' then if allowsBlock cs then .block else .double
  else if !readsAsOther s && allowsPlain cs then .plain
  else if allowsSingle cs then .single
  else .double

/-! ## Texts -/

/-- An indentation. -/
def pad (indent : Nat) : List Char := List.replicate indent ' '

/-- A hexadecimal digit in upper case. -/
def upperHexDigit (n : Nat) : Char :=
  if n < 10 then Char.ofNat ('0'.toNat + n) else Char.ofNat ('A'.toNat + n - 10)

/-- A number in hexadecimal with a fixed number of digits. -/
def hexDigits : Nat → Nat → List Char
  | 0, _ => []
  | count + 1, n => hexDigits count (n / 16) ++ [upperHexDigit (n % 16)]

/-- The letter of an escape for a character, when it has one. -/
def escapeLetter? (c : Char) : Option Char :=
  match c with
  | '\x00' => some '0'
  | '\x07' => some 'a'
  | '\x08' => some 'b'
  | '\t' => some 't'
  | '\n' => some 'n'
  | '\x0b' => some 'v'
  | '\x0c' => some 'f'
  | '\r' => some 'r'
  | '\x1b' => some 'e'
  | '\x22' => some '\x22'
  | '\\' => some '\\'
  | '\u0085' => some 'N'
  | '\u2028' => some 'L'
  | '\u2029' => some 'P'
  | _ => none

/-- A character as it stands in double quotes. -/
def escape (c : Char) : List Char :=
  match escapeLetter? c with
  | some l => ['\\', l]
  | none =>
    let n := c.toNat
    if isPrintable c then [c]
    else if n ≤ 0xFF then '\\' :: 'x' :: hexDigits 2 n
    else if n ≤ 0xFFFF then '\\' :: 'u' :: hexDigits 4 n
    else '\\' :: 'U' :: hexDigits 8 n

/-- The characters of a text over several lines, each line with an indentation;
`fresh` says that a line starts. -/
def indentLines (indent : Nat) (write : Char → List Char) : Bool → List Char → List Char
  | _, [] => []
  | fresh, c :: cs =>
    if isBreak c then c :: indentLines indent write true cs
    else (if fresh then pad indent else []) ++ write c ++ indentLines indent write false cs

/-- What the header of a block says: an indentation where the text starts with a
blank, and what becomes of the breaks at its end. -/
def blockHints (cs : List Char) : List Char :=
  let indent := if (cs.head?.map fun c => c = ' ' || isBreak c).getD false then ['2'] else []
  let chomp :=
    match cs.reverse with
    | [] => ['-']
    | [c] => if isBreak c then ['+'] else ['-']
    | c :: d :: _ => if isBreak c then if isBreak d then ['+'] else [] else ['-']
  indent ++ chomp

/-- The text of a scalar, up to and with the end of its line. -/
def textLines (indent : Nat) (s : String) : List Char :=
  let cs := s.toList
  match Style.of s with
  | .plain => cs ++ ['\n']
  | .single =>
    '\x27' :: indentLines indent (fun c => if c = '\x27' then ['\x27', '\x27'] else [c]) false cs ++
      (if (cs.getLast?.map isBreak).getD false then pad indent else []) ++ ['\x27', '\n']
  | .double => '\x22' :: cs.flatMap escape ++ ['\x22', '\n']
  | .block =>
    '|' :: blockHints cs ++ ['\n'] ++ indentLines indent (fun c => [c]) true cs ++
      (if (cs.getLast?.map isBreak).getD false then [] else ['\n'])

/-- The text of a floating-point number. -/
def floatText (x : Float) : String :=
  if isFinite x then documentText "" x
  else if x.isNaN then ".nan"
  else if x < 0 then "-.inf"
  else ".inf"

/-- A scalar, up to and with the end of its line. -/
def scalarLines (indent : Nat) : Document → List Char
  | .bool b => (if b then "true" else "false").toList ++ ['\n']
  | .int n => (toString n).toList ++ ['\n']
  | .float x => (floatText x).toList ++ ['\n']
  | .text s => textLines indent s
  | _ => "null".toList ++ ['\n']

/-! ## Collections -/

/-- The text that names an entry. -/
def keyName : Key → String
  | .text s => s
  | .place n => toString n
  | .other => ""

/-- A key with the colon behind it. A key that is long or has several lines is
marked as a key and has its colon on a line of its own. -/
def keyLines (indent : Nat) (k : Key) : List Char :=
  let s := keyName k
  if s.toList.any isBreak ∨ 128 < s.utf8ByteSize then
    '?' :: ' ' :: textLines (indent + 2) s ++ pad indent ++ [':']
  else (textLines (indent + 2) s).dropLast ++ [':']

mutual

/-- The entries of a mapping, in a column. The first one starts where it is put. -/
def entryLines (indent : Nat) : List (Key × Document) → List Char
  | [] => []
  | (k, d) :: es =>
    keyLines indent k ++ valueLines indent d ++
      (if es.isEmpty then [] else pad indent ++ entryLines indent es)

/-- What follows the colon of an entry. -/
def valueLines (indent : Nat) : Document → List Char
  | .list [] => " []\n".toList
  | .list items => '\n' :: pad indent ++ itemLines indent items
  | .object [] => " \x7b\x7d\n".toList
  | .object entries => '\n' :: pad (indent + 2) ++ entryLines (indent + 2) entries
  | d => ' ' :: scalarLines (indent + 2) d

/-- The items of a list, in a column. The first one starts where it is put. -/
def itemLines (indent : Nat) : List Document → List Char
  | [] => []
  | d :: ds =>
    '-' :: ' ' :: inItemLines (indent + 2) d ++
      (if ds.isEmpty then [] else pad indent ++ itemLines indent ds)

/-- What follows the dash of an item. -/
def inItemLines (indent : Nat) : Document → List Char
  | .list [] => "[]\n".toList
  | .list items => itemLines indent items
  | .object [] => "\x7b\x7d\n".toList
  | .object entries => entryLines indent entries
  | d => scalarLines indent d

end

/-- A document as a text. -/
def print (d : Document) : String := String.ofList (inItemLines 0 d)

end CoreForge.Yaml
