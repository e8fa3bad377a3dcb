/-!
# Double precision numbers

A 64-bit floating point number by its bits, and exact conversions between the binary formats. No
arithmetic is done on these numbers.
-/

namespace Linkage

structure Double where
  bits : UInt64
  deriving DecidableEq, Repr

namespace Double

def isNegative (x : Double) : Bool := x.bits.toNat.testBit 63

def exponent (x : Double) : Nat := x.bits.toNat / Nat.pow 2 52 % Nat.pow 2 11

def fraction (x : Double) : Nat := x.bits.toNat % Nat.pow 2 52

def isNaN (x : Double) : Bool := x.exponent == 0x7FF && x.fraction != 0

def isInfinite (x : Double) : Bool := x.exponent == 0x7FF && x.fraction == 0

def isZero (x : Double) : Bool := x.exponent == 0 && x.fraction == 0

def zero : Double := ⟨0⟩

/-- The quiet number that stands for all that are none. -/
def nan : Double := ⟨0x7FF8000000000000⟩

/-- The significand of a finite number, which is that times two to the `scale`. -/
def significand (x : Double) : Nat :=
  if x.exponent = 0 then x.fraction else Nat.pow 2 52 + x.fraction

def scale (x : Double) : Int := (max x.exponent 1 : Nat) - 1075

def ofParts (negative : Bool) (exponent fraction : Nat) : Double :=
  ⟨UInt64.ofNat ((if negative then Nat.pow 2 63 else 0) + exponent * Nat.pow 2 52 + fraction)⟩

/-- A binary format that is narrower than double precision. -/
structure Format where
  exponentBits : Nat
  fractionBits : Nat
  deriving DecidableEq, Repr

def Format.half : Format := ⟨5, 10⟩

def Format.single : Format := ⟨8, 23⟩

namespace Format

def bias (f : Format) : Nat := Nat.pow 2 (f.exponentBits - 1) - 1

def signBit (f : Format) : Nat := Nat.pow 2 (f.exponentBits + f.fractionBits)

end Format

/-- The bits of a finite number other than zero in a narrower format, if that format holds it
exactly. -/
def narrow? (f : Format) (x : Double) : Option Nat :=
  let e : Int := (x.exponent : Int) - 1023
  let sign := if x.isNegative then f.signBit else 0
  if x.exponent = 0 ∨ e > f.bias then none
  else if 1 - (f.bias : Int) ≤ e then
    let unit := Nat.pow 2 (52 - f.fractionBits)
    if x.fraction % unit = 0 then
      some (sign + (e + f.bias).toNat * Nat.pow 2 f.fractionBits + x.fraction / unit)
    else none
  else
    let unit := Nat.pow 2 (53 - (f.bias : Int) - f.fractionBits - e).toNat
    if x.significand % unit = 0 then some (sign + x.significand / unit) else none

/-- The number that has the given bits in a narrower format. What is no number becomes quiet. -/
def widen (f : Format) (bits : Nat) : Double :=
  let negative := bits.testBit (f.exponentBits + f.fractionBits)
  let exponent := bits / Nat.pow 2 f.fractionBits % Nat.pow 2 f.exponentBits
  let fraction := bits % Nat.pow 2 f.fractionBits
  let unit := Nat.pow 2 (52 - f.fractionBits)
  if exponent = Nat.pow 2 f.exponentBits - 1 then
    if fraction = 0 then ofParts negative 0x7FF 0
    else ofParts negative 0x7FF (Nat.pow 2 51 + fraction * unit % Nat.pow 2 51)
  else if exponent = 0 then
    if fraction = 0 then ofParts negative 0 0
    else
      let top := fraction.log2
      ofParts negative (1024 + top - f.bias - f.fractionBits)
        ((fraction - Nat.pow 2 top) * Nat.pow 2 (52 - top))
  else ofParts negative (1023 + exponent - f.bias) (fraction * unit)

/-- The double nearest to a whole number below 2^64; a tie goes to the even neighbour. -/
def ofWhole (negative : Bool) (n : Nat) : Double :=
  if n = 0 then zero
  else
    let top := n.log2
    if top ≤ 52 then ofParts negative (1023 + top) (n * Nat.pow 2 (52 - top) - Nat.pow 2 52)
    else
      let unit := Nat.pow 2 (top - 52)
      let quotient := n / unit
      let rest := n % unit
      let up := decide (unit < 2 * rest) || (2 * rest == unit && quotient % 2 == 1)
      let rounded := if up then quotient + 1 else quotient
      -- a carry out of the significand moves on to the exponent
      ofParts negative (1023 + top) 0 |> fun x => ⟨x.bits + UInt64.ofNat (rounded - Nat.pow 2 52)⟩

end Double

end Linkage
