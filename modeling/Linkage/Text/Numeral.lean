/-!
# Numerals

Whole numbers as they are written in types and on the command line.
-/

namespace Linkage.Numeral

def isDigit (c : Char) : Bool := '0' ≤ c && c ≤ '9'

def digits? (cs : List Char) : Option Nat :=
  if cs.isEmpty || !cs.all isDigit then none
  else some (cs.foldl (fun n c => n * 10 + (c.toNat - '0'.toNat)) 0)

def signed {α : Type} (rest : List Char → α) (negate : α → α) : List Char → α
  | '-' :: cs => negate (rest cs)
  | '+' :: cs => rest cs
  | cs => rest cs

/-- A decimal number with an optional sign that fits in 64 bits. -/
def decimal? (cs : List Char) : Option Int :=
  let value := signed (fun cs => (digits? cs).map Int.ofNat) (·.map Neg.neg) cs
  value.filter fun n => -Int.pow 2 63 ≤ n && n < Int.pow 2 63

end Linkage.Numeral
