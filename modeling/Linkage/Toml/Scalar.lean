import Linkage.Text.Hex
import Linkage.Text.Numeral

/-!
# TOML scalars

Numbers, dates and times as TOML writes them. Floating-point numbers, dates and times are kept as
they are written, because only their form matters here.
-/

namespace Linkage.Toml

inductive Scalar where
  | string (s : String)
  | integer (n : Int)
  | float (text : List Char)
  | boolean (b : Bool)
  | datetime (text : List Char)
  deriving DecidableEq, Repr

open Numeral (isDigit)

/-! ### Digits -/

/-- Digits with single underscores between them; gives the digits. -/
def separated (isDigit : Char → Bool) : List Char → Option (List Char)
  | [] => none
  | [c] => if isDigit c then some [c] else none
  | c :: '_' :: rest => if isDigit c then (separated isDigit rest).map (c :: ·) else none
  | c :: rest => if isDigit c then (separated isDigit rest).map (c :: ·) else none

def valueOf (base : Nat) (digits : List Char) : Nat :=
  digits.foldl (fun n c => n * base + (Hex.value? c).getD 0) 0

def hasLeadingZero : List Char → Bool
  | '0' :: _ :: _ => true
  | _ => false

def integer? (negative : Bool) (text : List Char) : Option Int := do
  let digits ← separated isDigit text
  if hasLeadingZero digits then none
  else
    let n := Int.ofNat (valueOf 10 digits)
    let n := if negative then -n else n
    if -Int.pow 2 63 ≤ n ∧ n < Int.pow 2 63 then some n else none

def based? (base : Nat) (text : List Char) : Option Int := do
  let digits ← separated (fun c => (Hex.value? c).any (· < base)) text
  let n := valueOf base digits
  if n < Nat.pow 2 63 then some (Int.ofNat n) else none

/-! ### Floating-point numbers -/

/-- The parts of a number: before the point, after it, and the signed exponent. -/
structure FloatText where
  whole : List Char
  fraction : List Char
  exponent : Int

private def fraction? : List Char → Option (List Char × List Char)
  | '.' :: cs => do
    let run := cs.takeWhile fun c => isDigit c || c == '_'
    let digits ← separated isDigit run
    return (digits, cs.drop run.length)
  | cs => some ([], cs)

/-- The value of an exponent. Further digits are left out once it is large enough to decide about
any number of ordinary length. -/
def exponentOf (digits : List Char) : Nat :=
  digits.foldl (fun n c => if n < 10000 then n * 10 + (Hex.value? c).getD 0 else n) 0

private def exponent? : List Char → Option Int
  | [] => some 0
  | c :: cs =>
    if c = 'e' ∨ c = 'E' then
      Numeral.signed (fun cs => (separated isDigit cs).map fun ds => Int.ofNat (exponentOf ds))
        (·.map Neg.neg) cs
    else none

def floatText? (whole rest : List Char) : Option FloatText := do
  let whole ← separated isDigit whole
  let (fraction, rest) ← fraction? rest
  let exponent ← exponent? rest
  if hasLeadingZero whole then none else some ⟨whole, fraction, exponent⟩

def FloatText.isFinite (t : FloatText) : Bool :=
  let digits := t.whole ++ t.fraction
  let significand := valueOf 10 digits
  let exponent := t.exponent - t.fraction.length
  if significand = 0 then true
  else if exponent > 400 then false
  else if exponent < -400 - digits.length then true
  else
    let bound := Nat.pow 2 1024 - Nat.pow 2 970
    if 0 ≤ exponent then significand * Nat.pow 10 exponent.toNat < bound
    else significand < bound * Nat.pow 10 (-exponent).toNat

/-! ### Dates and times -/

private def number (cs : List Char) : Nat := valueOf 10 cs

private def daysIn (year month : Nat) : Nat :=
  if month = 2 then if year % 4 = 0 && (year % 100 ≠ 0 || year % 400 = 0) then 29 else 28
  else if month ∈ [4, 6, 9, 11] then 30 else 31

private def date? : List Char → Option (List Char)
  | y1 :: y2 :: y3 :: y4 :: '-' :: m1 :: m2 :: '-' :: d1 :: d2 :: rest =>
    let year := number [y1, y2, y3, y4]
    let month := number [m1, m2]
    let day := number [d1, d2]
    if [y1, y2, y3, y4, m1, m2, d1, d2].all isDigit && 1 ≤ month && month ≤ 12 && 1 ≤ day &&
      day ≤ daysIn year month then some rest else none
  | _ => none

private def seconds? : List Char → Option (List Char)
  | ':' :: s1 :: s2 :: rest =>
    if isDigit s1 && isDigit s2 && number [s1, s2] < 60 then
      match rest with
      | '.' :: f :: rest => if isDigit f then some (rest.dropWhile isDigit) else none
      | rest => some rest
    else none
  | _ => none

private def time? : List Char → Option (List Char)
  | h1 :: h2 :: ':' :: m1 :: m2 :: rest =>
    if [h1, h2, m1, m2].all isDigit && number [h1, h2] < 24 && number [m1, m2] < 60 then
      if rest.head? = some ':' then seconds? rest else some rest
    else none
  | _ => none

private def offset? : List Char → Bool
  | [] => true
  | ['Z'] => true
  | [sign, h1, h2, ':', m1, m2] =>
    (sign == '+' || sign == '-') && [h1, h2, m1, m2].all isDigit && number [h1, h2] ≤ 24 &&
      number [m1, m2] ≤ 60
  | _ => false

/-- Whether the text is a date, a time, or a date and a time that a `T` or a blank divides. -/
def isDatetime (text : List Char) : Bool :=
  let text := text.map fun c => if c = ' ' || c = 't' then 'T' else if c = 'z' then 'Z' else c
  match date? text with
  | some [] => true
  | some ('T' :: rest) => (time? rest).any offset?
  | some _ => false
  | none => time? text = some []

/-! ### Reading -/

private def isDatetimeChar (c : Char) : Bool := isDigit c || "-:Tt .Zz+".toList.contains c

private def isFloatChar (c : Char) : Bool := isDigit c || "_.-+eE".toList.contains c

private def datetime (cs : List Char) : Option (Scalar × List Char) :=
  let run := cs.takeWhile isDatetimeChar
  let text := (run.reverse.dropWhile (· == ' ')).reverse
  if isDatetime text then some (.datetime text, cs.drop run.length) else none

private def decimal (negative : Bool) (cs : List Char) : Option (Scalar × List Char) :=
  let lead := cs.takeWhile fun c => isDigit c || c == '_'
  let rest := cs.drop lead.length
  if rest.head?.any fun c => c == '.' || c == 'e' || c == 'E' then do
    let tail := rest.takeWhile isFloatChar
    let text ← floatText? lead tail
    if text.isFinite then some (.float (lead ++ tail), rest.drop tail.length) else none
  else (integer? negative lead).map fun n => (.integer n, rest)

private def inBase (base : Nat) (cs : List Char) : Option (Scalar × List Char) :=
  let run := cs.takeWhile fun c => (Hex.value? c).any (· < base) || c == '_'
  (based? base run).map fun n => (.integer n, cs.drop run.length)

private def special : List Char → Option (Scalar × List Char)
  | 'i' :: 'n' :: 'f' :: rest => some (.float "inf".toList, rest)
  | 'n' :: 'a' :: 'n' :: rest => some (.float "nan".toList, rest)
  | _ => none

private def afterSign (negative : Bool) (cs : List Char) : Option (Scalar × List Char) :=
  (special cs).or (decimal negative cs)

/-- A scalar other than a string. A base other than ten takes no sign. -/
def scalar : List Char → Option (Scalar × List Char)
  | '+' :: rest => afterSign false rest
  | '-' :: rest => afterSign true rest
  | '0' :: 'x' :: rest => inBase 16 rest
  | '0' :: 'o' :: rest => inBase 8 rest
  | '0' :: 'b' :: rest => inBase 2 rest
  | 't' :: 'r' :: 'u' :: 'e' :: rest => some (.boolean true, rest)
  | 'f' :: 'a' :: 'l' :: 's' :: 'e' :: rest => some (.boolean false, rest)
  | cs =>
    match special cs with
    | some found => some found
    | none =>
      match (cs.dropWhile isDigit).head? with
      | some '-' | some ':' => datetime cs
      | _ => decimal false cs

end Linkage.Toml
