import Linkage.Text.Conversion

/-!
# Message templates

A template holds conversions that are replaced by arguments in order. Behind its percent sign, a
conversion may have flags, a width, a point with a precision, and then its verb; `%%` is a percent
sign. A width or precision may be a star, which stands for an argument, and a number in brackets
chooses the argument that comes next. Whatever does not work out is told in the text itself: a
conversion that its argument does not have, an argument that is missing or left over, and a
template that ends within a conversion. A width or precision that is far too large ends the
template.
-/

namespace Linkage.Template

/-- Widths and precisions beyond this one are refused. -/
def maxCount : Nat := 1000000

structure Reading where
  rest : List Char
  written : String := ""
  /-- The number of the argument that comes next. -/
  next : Nat := 0
  /-- Whether arguments were chosen by number. Then none counts as left over. -/
  reordered : Bool := false
  /-- The conversion at hand. -/
  spec : Spec := {}
  /-- Whether the argument of the conversion at hand is chosen, if it is, as it should be. -/
  good : Bool := true
  /-- Whether the last thing read was a choice of an argument. -/
  chosen : Bool := false
  deriving DecidableEq, Repr

/-! ### Numbers -/

def digitOf (c : Char) : Nat := c.toNat - '0'.toNat

def numberFrom (n : Option Nat) : List Char → Option Nat × List Char
  | [] => (n, [])
  | c :: cs =>
    if !c.isDigit then (n, c :: cs)
    else if maxCount < n.getD 0 then (none, [])
    else numberFrom (some (n.getD 0 * 10 + digitOf c)) cs

/-- The number that the text starts with, and what follows. After one that is too large nothing
follows. -/
def number (cs : List Char) : Option Nat × List Char := numberFrom none cs

def Arg.count? : Arg → Option Int
  | .int n => if n.natAbs ≤ maxCount then some n else none
  | _ => none

namespace Reading

/-! ### The parts of a conversion -/

def withFlag? (spec : Spec) (c : Char) : Option Spec :=
  match c with
  | '-' => some { spec with left := true }
  | '0' => some { spec with zero := true }
  | '+' => some { spec with plus := true }
  | ' ' => some { spec with blank := true }
  | '#' => some { spec with alternate := true }
  | _ => none

def flagsFrom (spec : Spec) : List Char → Spec × List Char
  | [] => (spec, [])
  | c :: cs =>
    match withFlag? spec c with
    | some spec => flagsFrom spec cs
    | none => (spec, c :: cs)

def flags (r : Reading) : Reading :=
  let (spec, rest) := flagsFrom {} r.rest
  { r with spec, rest, good := true, chosen := false }

/-- Takes a number in brackets as the choice of the next argument. Brackets that do not close, or
hold anything but a number, are no choice, but spoil the conversion; so does the number of no
argument. -/
def choose (count : Nat) (r : Reading) : Reading :=
  match r.rest with
  | '[' :: cs =>
    let inside := cs.takeWhile (· ≠ ']')
    let after := cs.drop (inside.length + 1)
    let spoilt := { r with reordered := true, good := false, chosen := false }
    if cs.length < 2 ∨ inside.length = cs.length then { spoilt with rest := cs }
    else match number inside with
      | (some n, []) =>
        if 1 ≤ n ∧ n ≤ count then
          { r with rest := after, next := n - 1, reordered := true, chosen := true }
        else { spoilt with rest := after, chosen := true }
      | _ => { spoilt with rest := after }
  | _ => { r with chosen := false }

def star (args : List Arg) (r : Reading) : Option Int × Reading :=
  match args[r.next]? with
  | some arg => (arg.count?, { r with next := r.next + 1, chosen := false })
  | none => (none, { r with chosen := false })

def write (r : Reading) (text : String) : Reading := { r with written := r.written ++ text }

/-- The width: a negative one fills on the right. It may not be written right behind a choice. -/
def width (args : List Arg) (r : Reading) : Reading :=
  match r.rest with
  | '*' :: cs =>
    match star args { r with rest := cs } with
    | (some n, r) =>
      { r with spec := { r.spec with width := n.natAbs, left := r.spec.left || n < 0 } }
    | (none, r) => r.write "%!(BADWIDTH)"
  | cs =>
    match number cs with
    | (some n, rest) =>
      { r with rest, spec := { r.spec with width := n }, good := r.good && !r.chosen }
    | (none, rest) => { r with rest }

/-- The precision after its point, which is no precision at the end of the template. Without a
number it is zero. -/
def precision (args : List Arg) (r : Reading) : Reading :=
  match r.rest with
  | '.' :: c :: cs =>
    let r := choose args.length { r with rest := c :: cs, good := r.good && !r.chosen }
    match r.rest with
    | '*' :: cs =>
      match star args { r with rest := cs } with
      | (some n, r) =>
        if n < 0 then r.write "%!(BADPREC)"
        else { r with spec := { r.spec with precision := some n.toNat } }
      | (none, r) => r.write "%!(BADPREC)"
    | cs =>
      let (n, rest) := number cs
      { r with rest, spec := { r.spec with precision := some (n.getD 0) } }
  | _ => r

def verb (args : List Arg) (r : Reading) : Reading :=
  match r.rest with
  | [] => r.write "%!(NOVERB)"
  | c :: cs =>
    let r := { r with rest := cs }
    let told (problem : String) : Reading :=
      r.write ("%!" ++ String.singleton c ++ "(" ++ problem ++ ")")
    if c = '%' then r.write "%"
    else if !r.good then told "BADINDEX"
    else match args[r.next]? with
      | none => told "MISSING"
      | some arg => { r.write (convert r.spec c arg) with next := r.next + 1 }

def conversion (args : List Arg) (r : Reading) : Reading :=
  let r := precision args (width args (choose args.length r.flags))
  verb args (if r.chosen then r else choose args.length r)

/-! ### Templates -/

/-- Reads the rest of a template. Every step but the last one reads a percent sign, so one step more
than there are characters is enough. -/
def run (args : List Arg) : Nat → Reading → Reading
  | 0, r => r
  | steps + 1, r =>
    let text := r.rest.takeWhile (· ≠ '%')
    let plain := r.write (String.ofList text)
    match r.rest.drop text.length with
    | [] => { plain with rest := [] }
    | _ :: rest => run args steps (conversion args { plain with rest })

def extra (args : List Arg) (r : Reading) : String :=
  match args.drop r.next with
  | [] => ""
  | left =>
    if r.reordered then ""
    else "%!(EXTRA " ++ ", ".intercalate (left.map fun a => a.kind ++ "=" ++ a.plain {}) ++ ")"

end Reading

def render (template : String) (args : List Arg) : String :=
  let cs := template.toList
  let r := Reading.run args (cs.length + 1) { rest := cs }
  r.written ++ Reading.extra args r

end Linkage.Template
