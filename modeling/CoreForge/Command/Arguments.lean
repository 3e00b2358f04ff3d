import CoreForge.Text.Ascii
/-!
# Arguments of a command line

Arguments are options and others. Long options start with two dashes, short ones
with one, and several short ones may share a dash. A value follows its option, or is
joined to it: behind an equals sign, or, for a short option, directly. Two dashes
alone end the options.
-/

namespace CoreForge.Command

/-- What an option takes. -/
inductive OptionKind
  /-- No value, and given at most once. -/
  | flag
  /-- No value, and given any number of times. -/
  | counter
  /-- A value, and given at most once. -/
  | value
  /-- A request for help, which ends the reading. -/
  | help
deriving DecidableEq, Repr

/-- An option of a command. -/
structure OptionSpec where
  long : String
  short : Option Char
  kind : OptionKind
  /-- The values that it can have. -/
  accepts : String → Bool

/-- Why arguments are not carried out. -/
inductive Halt
  | usage
  | help
deriving DecidableEq, Repr

/-- The options with their values, by long name, and the other arguments. -/
structure Found where
  options : List (String × String)
  others : List String
deriving Repr

namespace Found

/-- Nothing. -/
def empty : Found := ⟨[], []⟩

/-- With an option added. -/
def option (f : Found) (name value : String) : Found := { f with options := f.options ++ [(name, value)] }

/-- With another argument added, which may not be empty. -/
def other (f : Found) (a : String) : Except Halt Found :=
  if a = "" then .error .usage else .ok { f with others := f.others ++ [a] }

/-- How often an option is given. -/
def count (f : Found) (name : String) : Nat := (f.options.filter (·.1 = name)).length

/-- The option is given. -/
def has (f : Found) (name : String) : Bool := 0 < f.count name

/-- The value of an option. -/
def value? (f : Found) (name : String) : Option String := (f.options.find? (·.1 = name)).map (·.2)

/-- With a value for an option that has none yet. -/
def give (f : Found) (s : OptionSpec) (value : String) : Except Halt Found :=
  if f.has s.long ∨ ¬ s.accepts value then .error .usage else .ok (f.option s.long value)

end Found

/-- Takes an option that was named. Answers also whether its value is still to come. -/
def takeOption (s : OptionSpec) (joined : Option String) (f : Found) : Except Halt (Found × Option OptionSpec) :=
  match s.kind, joined with
  | .help, none => .error .help
  | .counter, none => .ok (f.option s.long "", none)
  | .flag, none => (f.give s "").map fun f => (f, none)
  | .value, some v => (f.give s v).map fun f => (f, none)
  | .value, none => .ok (f, some s)
  | _, some _ => .error .usage

/-- Takes short options that share a dash. -/
def takeShort (specs : List OptionSpec) : Found → List Char → Except Halt (Found × Option OptionSpec)
  | f, [] => .ok (f, none)
  | f, c :: cs =>
    match specs.find? (·.short = some c) with
    | none => .error .usage
    | some s =>
      if s.kind = .value then
        match cs with
        | [] => takeOption s none f
        | '=' :: v => takeOption s (some (String.ofList v)) f
        | v => takeOption s (some (String.ofList v)) f
      else
        match takeOption s none f with
        | .ok (f, _) => takeShort specs f cs
        | .error e => .error e

/-- Takes a long option. -/
def takeLong (specs : List OptionSpec) (f : Found) (cs : List Char) : Except Halt (Found × Option OptionSpec) :=
  let name := String.ofList (cs.takeWhile (· ≠ '='))
  let joined :=
    match cs.dropWhile (· ≠ '=') with
    | [] => none
    | _ :: v => some (String.ofList v)
  match specs.find? (·.long = name) with
  | none => .error .usage
  | some s => takeOption s joined f

/-- The argument looks like an option. -/
def isOptionLike (a : String) : Bool := a ≠ "-" && a.toList.head? = some '-'

/-- Where the reader of arguments stands. -/
inductive Stage
  | options
  /-- The value of an option comes next. -/
  | value (s : OptionSpec)
  /-- No more options are expected. -/
  | others

/-- Reads arguments, of which `most` may be no options. The first one beyond those ends the
reading; it is answered with those behind it. -/
def readArguments (specs : List OptionSpec) (most : Nat) : Stage → Found → List String → Except Halt (Found × List String)
  | .value _, _, [] => .error .usage
  | _, f, [] => .ok (f, [])
  | .value s, f, a :: as =>
    if isOptionLike a then .error .usage
    else
      match f.give s a with
      | .ok f => readArguments specs most .options f as
      | .error e => .error e
  | .others, f, a :: as =>
    if most ≤ f.others.length then .error .usage
    else
      match f.other a with
      | .ok f => readArguments specs most .others f as
      | .error e => .error e
  | .options, f, a :: as =>
    let goOn (taken : Except Halt (Found × Option OptionSpec)) : Except Halt (Found × List String) :=
      match taken with
      | .error e => .error e
      | .ok (f, none) => readArguments specs most .options f as
      | .ok (f, some s) => readArguments specs most (.value s) f as
    match a.toList with
    | ['-', '-'] => readArguments specs most .others f as
    | '-' :: '-' :: cs => goOn (takeLong specs f cs)
    | '-' :: c :: cs => goOn (takeShort specs f (c :: cs))
    | _ =>
      if most ≤ f.others.length then .ok (f, a :: as)
      else
        match f.other a with
        | .ok f => readArguments specs most .options f as
        | .error e => .error e

end CoreForge.Command
