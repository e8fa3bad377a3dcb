import Linkage.Float.Double

/-!
# Shortest decimals

The text of a double has the fewest digits that read back as the same number, and of those the
ones nearest to it. It is positional for decimal exponents from -4 to 5, else scientific with a
signed exponent of at least two digits.
-/

namespace Linkage.Double

/-- `digits · 10^exponent`. -/
structure Decimal where
  digits : Nat
  exponent : Int
  deriving DecidableEq, Repr

structure Ratio where
  num : Nat
  den : Nat

namespace Ratio

def le (a b : Ratio) : Bool := a.num * b.den ≤ b.num * a.den

def lt (a b : Ratio) : Bool := a.num * b.den < b.num * a.den

/-- `n · base^exponent`. -/
def scaled (n base : Nat) (exponent : Int) : Ratio :=
  if 0 ≤ exponent then ⟨n * Nat.pow base exponent.toNat, 1⟩ else ⟨n, Nat.pow base (-exponent).toNat⟩

end Ratio

/-- The reals that round to a number, around its value: both ends belong to them if the
significand is even. -/
structure Interval where
  low : Ratio
  value : Ratio
  high : Ratio
  closed : Bool

/-- The gap below a power of two is half as wide as the one above. -/
def interval (x : Double) : Interval :=
  let m := x.significand
  let narrow := x.fraction == 0 && 1 < x.exponent
  { low :=
      if narrow then .scaled (4 * m - 1) 2 (x.scale - 2) else .scaled (2 * m - 1) 2 (x.scale - 1)
    value := .scaled m 2 x.scale
    high := .scaled (2 * m + 1) 2 (x.scale - 1)
    closed := m % 2 == 0 }

def Interval.contains (i : Interval) (r : Ratio) : Bool :=
  if i.closed then i.low.le r && r.le i.high else i.low.lt r && r.lt i.high

/-- The neighbour of the value on the grid `10^exponent` that lies in the interval, the nearer one
if both do. -/
def Interval.onGrid (i : Interval) (exponent : Int) : Option Decimal :=
  let unit := Ratio.scaled 1 10 exponent
  let below := i.value.num * unit.den / (i.value.den * unit.num)
  let lowHit := i.contains (.scaled below 10 exponent)
  let highHit := i.contains (.scaled (below + 1) 10 exponent)
  if lowHit && highHit then
    -- twice the value against the sum of its neighbours
    let middle := Ratio.scaled (2 * below + 1) 10 exponent
    let twice : Ratio := ⟨2 * i.value.num, i.value.den⟩
    if twice.lt middle || (!middle.lt twice && below % 2 == 0) then some ⟨below, exponent⟩
    else some ⟨below + 1, exponent⟩
  else if lowHit && below != 0 then some ⟨below, exponent⟩
  else if highHit then some ⟨below + 1, exponent⟩
  else none

def Interval.search (i : Interval) : (steps : Nat) → (exponent : Int) → Decimal
  | 0, _ => ⟨0, 0⟩
  | steps + 1, exponent => (i.onGrid exponent).getD (i.search steps (exponent - 1))

def width (n : Nat) : Nat := (Nat.toDigits 10 n).length

/-- The greatest `k` with `10^k` at most the value, which is not zero. -/
def Interval.magnitude (i : Interval) : Int :=
  let q := i.value.num / i.value.den
  if 0 < q then (width q : Int) - 1
  else
    let k := width (i.value.den / i.value.num)
    if Ratio.le (.scaled 1 10 (1 - (k : Int))) i.value then 1 - (k : Int) else -(k : Int)

def Decimal.trim : (steps : Nat) → Decimal → Decimal
  | 0, d => d
  | steps + 1, d =>
    if d.digits % 10 = 0 ∧ d.digits ≠ 0 then Decimal.trim steps ⟨d.digits / 10, d.exponent + 1⟩
    else d

def shortest (x : Double) : Decimal :=
  let i := x.interval
  (i.search 20 (i.magnitude + 1)).trim 20

def exponentText (e : Int) : String :=
  let digits := toString e.natAbs
  (if e < 0 then "-" else "+") ++ (if digits.length < 2 then "0" ++ digits else digits)

def zeros (n : Nat) : String := String.ofList (List.replicate n '0')

/-- The text of `digits · 10^exponent` with decimal exponent `e` from -4 to 5. -/
def positional (digits : List Char) (e : Int) : String :=
  if e < 0 then "0." ++ zeros ((-e).toNat - 1) ++ String.ofList digits
  else
    let whole := e.toNat + 1
    if digits.length ≤ whole then String.ofList digits ++ zeros (whole - digits.length)
    else String.ofList (digits.take whole) ++ "." ++ String.ofList (digits.drop whole)

def scientific (digits : List Char) (e : Int) : String :=
  String.ofList (digits.take 1) ++
    (if digits.length ≤ 1 then "" else "." ++ String.ofList (digits.drop 1)) ++
    "e" ++ exponentText e

def Decimal.text (d : Decimal) : String :=
  let digits := Nat.toDigits 10 d.digits
  let e := d.exponent + digits.length - 1
  if e < -4 ∨ 6 ≤ e then scientific digits e else positional digits e

def text (x : Double) : String :=
  let sign := if x.isNegative then "-" else ""
  if x.isNaN then "NaN"
  else if x.isInfinite then (if x.isNegative then "-Inf" else "+Inf")
  else if x.isZero then sign ++ "0"
  else sign ++ x.shortest.text

end Linkage.Double
