import CoreForge.Yaml.Mark
import CoreForge.Number.Literal
/-!
# Quoted scalars

Single quotes keep every character, a quote being written twice. Double quotes
know escapes. Both fold line breaks. The readers start after the opening quote
and answer the characters and what follows the closing quote.
-/

namespace CoreForge.Yaml

/-- Reads on in single quotes. `done` holds what was read and `gap` the blanks and
breaks since then, both in reverse. -/
def singleQuotedFrom (done gap : List Char) : List Mark → Option (List Char × List Mark)
  | [] => none
  | m :: ms =>
    if isBlank m.char ∨ isBreak m.char then singleQuotedFrom done (m.char :: gap) ms
    else if atDocumentMarker (m :: ms) then none
    else
      let done := (foldGap false gap.reverse).reverse ++ done
      if m.char = '\x27' then
        match ms with
        | n :: rest => if n.char = '\x27' then singleQuotedFrom ('\x27' :: done) [] rest else some (done.reverse, ms)
        | [] => some (done.reverse, ms)
      else singleQuotedFrom (m.char :: done) [] ms

/-- Reads a scalar in single quotes. -/
def singleQuoted? (ms : List Mark) : Option (List Char × List Mark) := singleQuotedFrom [] [] ms

/-- What a character after a backslash stands for. -/
inductive Escape
  | char (c : Char)
  /-- The number of hexadecimal digits that follow. -/
  | hex (digits : Nat)
  /-- The line break does not count. -/
  | join

/-- The meaning of a character after a backslash. -/
def Escape.of? (c : Char) : Option Escape :=
  if isBreak c then some .join
  else
    match c with
    | '0' => some (.char '\x00')
    | 'a' => some (.char '\x07')
    | 'b' => some (.char '\x08')
    | 't' => some (.char '\t')
    | '\t' => some (.char '\t')
    | 'n' => some (.char '\n')
    | 'v' => some (.char '\x0b')
    | 'f' => some (.char '\x0c')
    | 'r' => some (.char '\r')
    | 'e' => some (.char '\x1b')
    | ' ' => some (.char ' ')
    | '\x22' => some (.char '\x22')
    | '/' => some (.char '/')
    | '\\' => some (.char '\\')
    | 'N' => some (.char '\u0085')
    | '_' => some (.char '\u00a0')
    | 'L' => some (.char '\u2028')
    | 'P' => some (.char '\u2029')
    | 'x' => some (.hex 2)
    | 'u' => some (.hex 4)
    | 'U' => some (.hex 8)
    | _ => none

/-- The character with a number, when there is one. -/
def charOfNat? (n : Nat) : Option Char := if n.isValidChar then some (Char.ofNat n) else none

/-- Where the reader of a scalar in double quotes stands. -/
inductive QuotedPlace
  | text
  /-- After blanks and breaks, in reverse. -/
  | gap (escapedBreak : Bool) (cs : List Char)
  | escape
  /-- Some hexadecimal digits are still to come. -/
  | hex (left : Nat) (value : Nat)

/-- Reads on in double quotes; `done` holds what was read, in reverse. -/
def doubleQuotedFrom (done : List Char) : QuotedPlace → List Mark → Option (List Char × List Mark)
  | _, [] => none
  | .escape, m :: ms =>
    match Escape.of? m.char with
    | some (.char c) => doubleQuotedFrom (c :: done) .text ms
    | some (.hex digits) => doubleQuotedFrom done (.hex digits 0) ms
    | some .join => doubleQuotedFrom done (.gap true []) ms
    | none => none
  | .hex left value, m :: ms =>
    match Number.digitValue? m.char with
    | some d =>
      let value := value * 16 + d
      if 1 < left then doubleQuotedFrom done (.hex (left - 1) value) ms
      else (charOfNat? value).bind fun c => doubleQuotedFrom (c :: done) .text ms
    | none => none
  | .text, m :: ms =>
    if isBlank m.char ∨ isBreak m.char then doubleQuotedFrom done (.gap false [m.char]) ms
    else if m.char = '\x22' then some (done.reverse, ms)
    else if m.char = '\\' then doubleQuotedFrom done .escape ms
    else doubleQuotedFrom (m.char :: done) .text ms
  | .gap escapedBreak cs, m :: ms =>
    if isBlank m.char ∨ isBreak m.char then doubleQuotedFrom done (.gap escapedBreak (m.char :: cs)) ms
    else if atDocumentMarker (m :: ms) then none
    else
      let done := (foldGap escapedBreak cs.reverse).reverse ++ done
      if m.char = '\x22' then some (done.reverse, ms)
      else if m.char = '\\' then doubleQuotedFrom done .escape ms
      else doubleQuotedFrom (m.char :: done) .text ms

/-- Reads a scalar in double quotes. -/
def doubleQuoted? (ms : List Mark) : Option (List Char × List Mark) := doubleQuotedFrom [] .text ms

end CoreForge.Yaml
