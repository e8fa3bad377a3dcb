import Linkage.Text.Quoted

/-!
# Conversions

How an argument of a message is written. A conversion is named by a letter, its verb; flags, a width
and a precision say more. An argument that does not have a conversion is written in a form that says
so.
-/

namespace Linkage.Template

inductive Arg where
  | text (s : String)
  | int (n : Int)
  | bool (b : Bool)
  deriving DecidableEq, Repr

def Arg.kind : Arg → String
  | .text _ => "string"
  | .int _ => "int"
  | .bool _ => "bool"

structure Spec where
  /-- Fills on the right. -/
  left : Bool := false
  /-- Fills with zeros. -/
  zero : Bool := false
  /-- Writes a plus sign, and quotes in ASCII. -/
  plus : Bool := false
  /-- Leaves a blank for a plus sign, and between bytes. -/
  blank : Bool := false
  /-- Writes the base of a number, and quotes without escapes. -/
  alternate : Bool := false
  /-- Writes a value as it would stand in a program. -/
  literal : Bool := false
  width : Nat := 0
  precision : Option Nat := none
  deriving DecidableEq, Repr

/-- Under its own verb, a value has forms of its own in place of the flags for signs and bases. -/
def Spec.ofValue (spec : Spec) : Spec :=
  { spec with literal := spec.alternate, alternate := false, plus := false }

/-! ### Filling -/

/-- Zeros fill on the left only. -/
def Spec.fill (spec : Spec) : Char := if spec.zero && !spec.left then '0' else ' '

def Spec.pad (spec : Spec) (s : String) : String :=
  let fill := String.ofList (List.replicate (spec.width - s.length) spec.fill)
  if spec.left then s ++ fill else fill ++ s

def Spec.padBlank (spec : Spec) (s : String) : String := { spec with zero := false }.pad s

def Spec.cut {α : Type} (spec : Spec) (xs : List α) : List α :=
  match spec.precision with
  | some n => xs.take n
  | none => xs

/-! ### Numbers -/

inductive Base where
  | two
  | eight
  | ten
  | sixteen
  deriving DecidableEq, Repr

def Base.toNat : Base → Nat
  | .two => 2
  | .eight => 8
  | .ten => 10
  | .sixteen => 16

def digits (base : Base) (least n : Nat) : List Char :=
  let ds := Nat.toDigits base.toNat n
  List.replicate (least - ds.length) '0' ++ ds

def Base.mark (base : Base) (ds : List Char) : List Char :=
  match base with
  | .two => ['0', 'b']
  | .eight => if ds.head? = some '0' then [] else ['0']
  | .ten => []
  | .sixteen => ['0', 'x']

def Spec.signOf (spec : Spec) (n : Int) : List Char :=
  if n < 0 then ['-'] else if spec.plus then ['+'] else if spec.blank then [' '] else []

/-- A number. Its precision is the least number of digits; without one, zeros may fill the width. A
zero without digits is left out. -/
def Spec.number (spec : Spec) (base : Base) (n : Int) (lead : List Char) (upper : Bool) : String :=
  if spec.precision = some 0 ∧ n = 0 then spec.padBlank ""
  else
    let sign := spec.signOf n
    let filled := if spec.zero && !spec.left then spec.width - sign.length else 0
    let ds := digits base (spec.precision.getD filled) n.natAbs
    let marked := lead ++ (if spec.alternate then base.mark ds else []) ++ ds
    spec.padBlank (String.ofList (sign ++ if upper then marked.map Char.toUpper else marked))

def charOf (n : Int) : Char :=
  if 0 ≤ n ∧ n.toNat.isValidChar then Char.ofNat n.toNat else Char.ofNat 0xFFFD

/-- A number as a code point. A negative one wraps around at 64 bits. -/
def Spec.codePoint (spec : Spec) (n : Int) : String :=
  let code := (n % Int.pow 2 64).toNat
  let least := max 4 (spec.precision.getD 4)
  let text := "U+" ++ String.ofList ((digits .sixteen least code).map Char.toUpper)
  let shown := code.isValidChar && Printable.isPrintable (Char.ofNat code)
  spec.padBlank (if spec.alternate && shown then
    text ++ " \'" ++ String.singleton (Char.ofNat code) ++ "\'" else text)

/-! ### Text -/

def Spec.text (spec : Spec) (s : String) : String := spec.pad (String.ofList (spec.cut s.toList))

def Spec.quoted (spec : Spec) (s : String) : String :=
  let s := String.ofList (spec.cut s.toList)
  let quoted := if spec.plus then Quoted.asciiOfString s else Quoted.ofString s
  spec.pad (if spec.alternate then (Quoted.raw? s).getD quoted else quoted)

/-- The bytes of a text. Their base is told once, or of each byte if they stand apart. -/
def Spec.bytes (spec : Spec) (s : String) (upper : Bool) : String :=
  let bytes := (spec.cut (Utf8.bytesOf s)).map Hex.ofByte
  let mark := if spec.alternate then ['0', 'x'] else []
  let cs :=
    if bytes.isEmpty then []
    else if spec.blank then [' '].intercalate (bytes.map (mark ++ ·))
    else mark ++ bytes.flatten
  spec.pad (String.ofList (if upper then cs.map Char.toUpper else cs))

/-! ### Arguments -/

def convertText? (spec : Spec) (verb : Char) (s : String) : Option String :=
  match verb with
  | 's' => some (spec.text s)
  | 'v' => some (if spec.literal then spec.quoted s else spec.text s)
  | 'q' => some (spec.quoted s)
  | 'x' => some (spec.bytes s false)
  | 'X' => some (spec.bytes s true)
  | _ => none

def convertInt? (spec : Spec) (verb : Char) (n : Int) : Option String :=
  match verb with
  | 'd' | 'v' => some (spec.number .ten n [] false)
  | 'b' => some (spec.number .two n [] false)
  | 'o' => some (spec.number .eight n [] false)
  | 'O' => some (spec.number .eight n ['0', 'o'] false)
  | 'x' => some (spec.number .sixteen n [] false)
  | 'X' => some (spec.number .sixteen n [] true)
  | 'c' => some (spec.pad (String.singleton (charOf n)))
  | 'q' =>
    some (spec.pad (if spec.plus then Quoted.asciiOfChar (charOf n) else Quoted.ofChar (charOf n)))
  | 'U' => some (spec.codePoint n)
  | _ => none

def convertBool? (spec : Spec) (verb : Char) (b : Bool) : Option String :=
  match verb with
  | 't' | 'v' => some (spec.pad (toString b))
  | _ => none

/-- The argument under a conversion that it has. All have one that names their kind. -/
def convert? (spec : Spec) (verb : Char) (arg : Arg) : Option String :=
  if verb = 'T' then some (spec.text arg.kind)
  else match arg with
    | .text s => convertText? spec verb s
    | .int n => convertInt? spec verb n
    | .bool b => convertBool? spec verb b

def Arg.plain (spec : Spec) (arg : Arg) : String := (convert? spec 'v' arg).getD ""

def convert (spec : Spec) (verb : Char) (arg : Arg) : String :=
  let spec := if verb = 'v' ∨ verb = 'w' then spec.ofValue else spec
  (convert? spec verb arg).getD
    ("%!" ++ String.singleton verb ++ "(" ++ arg.kind ++ "=" ++ arg.plain spec ++ ")")

end Linkage.Template
