import Linkage.Text.Numeral
import Linkage.Text.Quoted

/-!
# Flags

The flags of a command line. A flag starts with one or two hyphens, and its value follows after an
equals sign or as the next argument. The first argument that is no flag ends the flags, and so do
two hyphens alone.
-/

namespace Linkage.Command

inductive Flag where
  | config
  | entry
  | output
  | verbosity
  deriving DecidableEq, Repr

namespace Flag

def name : Flag → String
  | .config => "config"
  | .entry => "entry"
  | .output => "o"
  | .verbosity => "v"

def kind : Flag → String
  | .verbosity => "int"
  | _ => "string"

def description : Flag → String
  | .config => "Directory holding tabby.toml (default: search upwards from the working directory)"
  | .entry => "Entry member, e.g. 'Main.main' or 'Main.main():void'"
  | .output => "Output image path"
  | .verbosity => "Log verbosity (-1 silences logging)"

def all : List Flag := [.config, .entry, .output, .verbosity]

def ofName? (s : String) : Option Flag := all.find? (·.name == s)

def usage (f : Flag) : String :=
  "  -" ++ f.name ++ " " ++ f.kind ++ "\n    \t" ++ f.description ++ "\n"

end Flag

def flagUsage (command : String) : String :=
  "Usage of " ++ command ++ ":\n" ++ String.join (Flag.all.map Flag.usage)

/-! ### Whole numbers -/

inductive NumberError where
  | notNumber
  | outOfRange
  deriving DecidableEq, Repr

def NumberError.text : NumberError → String
  | .notNumber => "parse error"
  | .outOfRange => "value out of range"

/-- The base of a number and its digits. A leading zero alone stands for base eight. -/
def baseOf (cs : List Char) : Nat × List Char :=
  match cs with
  | '0' :: c :: d :: rest =>
    match c.toLower with
    | 'b' => (2, d :: rest)
    | 'o' => (8, d :: rest)
    | 'x' => (16, d :: rest)
    | _ => (8, c :: d :: rest)
  | '0' :: rest => (8, rest)
  | cs => (10, cs)

def digitValue? (c : Char) : Option Nat :=
  if Numeral.isDigit c then some (c.toNat - '0'.toNat)
  else if c.isAlpha then some (c.toLower.toNat - 'a'.toNat + 10)
  else none

/-- The value of digits, with underscores left out. A value that does not fit in 64 bits is told
before anything that follows. -/
def digitsIn (base : Nat) (n : Nat) : List Char → Except NumberError Nat
  | [] => .ok n
  | c :: cs =>
    if c = '_' then digitsIn base n cs
    else match digitValue? c with
      | none => .error .notNumber
      | some d =>
        if base ≤ d then .error .notNumber
        else if Nat.pow 2 64 ≤ n * base + d then .error .outOfRange
        else digitsIn base (n * base + d) cs

/-- Whether every underscore has a digit before and after it. The mark of a base counts as one. -/
def underscoresBetween (afterDigit : Bool) : List Char → Bool
  | [] => true
  | ['_'] => false
  | '_' :: cs => afterDigit && underscoresBetween false cs
  | _ :: cs => underscoresBetween true cs

def underscoresAllowed (cs : List Char) : Bool :=
  match cs with
  | '0' :: c :: rest =>
    if ['b', 'o', 'x'].contains c.toLower then underscoresBetween true rest
    else underscoresBetween false cs
  | cs => underscoresBetween false cs

def unsigned (cs : List Char) : Except NumberError Nat := do
  if cs.isEmpty then throw .notNumber
  let (base, digits) := baseOf cs
  let n ← digitsIn base 0 digits
  if underscoresAllowed cs then return n else throw .notNumber

def number (s : String) : Except NumberError Int := do
  let n ← Numeral.signed (fun cs => (unsigned cs).map Int.ofNat) (·.map Neg.neg) s.toList
  if -Int.pow 2 63 ≤ n ∧ n < Int.pow 2 63 then return n else throw .outOfRange

/-! ### Parsing -/

structure Flags where
  config : Option String := none
  entry : Option String := none
  output : Option String := none
  verbosity : Option Int := none
  arguments : List String := []
  deriving DecidableEq, Repr

inductive FlagError where
  | help
  | syntactic (argument : String)
  | undefined (name : String)
  | noValue (f : Flag)
  | badValue (f : Flag) (text : String) (e : NumberError)
  deriving DecidableEq, Repr

def FlagError.message? : FlagError → Option String
  | .help => none
  | .syntactic argument => some ("bad flag syntax: " ++ argument)
  | .undefined name => some ("flag provided but not defined: -" ++ name)
  | .noValue f => some ("flag needs an argument: -" ++ f.name)
  | .badValue f text e =>
    some ("invalid value " ++ Quoted.ofString text ++ " for flag -" ++ f.name ++ ": " ++ e.text)

namespace Flags

def set (flags : Flags) (f : Flag) (value : String) : Except FlagError Flags :=
  match f with
  | .config => .ok { flags with config := some value }
  | .entry => .ok { flags with entry := some value }
  | .output => .ok { flags with output := some value }
  | .verbosity =>
    match number value with
    | .ok n => .ok { flags with verbosity := some n }
    | .error e => .error (.badValue f value e)

def flagText? (argument : String) : Option (List Char) :=
  match argument.toList with
  | '-' :: '-' :: cs => some cs
  | '-' :: c :: cs => some (c :: cs)
  | _ => none

/-- Splits a name from the value after its equals sign, which cannot come first. -/
def nameAndValue (cs : List Char) : String × Option String :=
  let name := cs.takeWhile (· ≠ '=')
  match cs.drop name.length with
  | _ :: value => (String.ofList name, some (String.ofList value))
  | [] => (String.ofList name, none)

def flag (name : String) : Except FlagError Flag :=
  match Flag.ofName? name with
  | some f => .ok f
  | none => if name = "help" ∨ name = "h" then .error .help else .error (.undefined name)

def parseFrom (flags : Flags) : List String → Except FlagError Flags
  | [] => .ok flags
  | argument :: rest =>
    match flagText? argument with
    | none => .ok { flags with arguments := argument :: rest }
    | some [] => .ok { flags with arguments := rest }
    | some (c :: cs) =>
      if c = '-' ∨ c = '=' then .error (.syntactic argument)
      else
        let (name, value?) := nameAndValue (c :: cs)
        match flag name, value?, rest with
        | .error e, _, _ => .error e
        | .ok f, none, [] => .error (.noValue f)
        | .ok f, none, value :: rest =>
          match flags.set f value with
          | .error e => .error e
          | .ok flags => flags.parseFrom rest
        | .ok f, some value, rest =>
          match flags.set f value with
          | .error e => .error e
          | .ok flags => flags.parseFrom rest

def parse (arguments : List String) : Except FlagError Flags := ({} : Flags).parseFrom arguments

end Flags

end Linkage.Command
