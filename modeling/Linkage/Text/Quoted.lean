import Linkage.Text.Hex
import Linkage.Text.Printable
import Linkage.Text.Utf8

/-!
# Quoted text

Text between quotes as messages and listings show it. The quote and the backslash are escaped,
printable characters stand for themselves, and everything else, stray bytes included, is written
by a letter escape or by its code in hexadecimal.
-/

namespace Linkage.Quoted

open Utf8 (Piece)

def letter? (c : Char) : Option Char :=
  match c.toNat with
  | 7 => some 'a'
  | 8 => some 'b'
  | 9 => some 't'
  | 10 => some 'n'
  | 11 => some 'v'
  | 12 => some 'f'
  | 13 => some 'r'
  | _ => none

def isPlainAscii (c : Char) : Bool := c.toNat < 0x80 && Printable.isPrintable c

/-- A character between quotes; those that stand for themselves are told by `shown`. -/
def escapeChar (shown : Char → Bool) (quote c : Char) : List Char :=
  if c = quote ∨ c = '\\' then ['\\', c]
  else if shown c then [c]
  else match letter? c with
    | some l => ['\\', l]
    | none =>
      if c.toNat < 0x20 ∨ c.toNat = 0x7F then '\\' :: 'x' :: Hex.fixed 2 c.toNat
      else if c.toNat < 0x10000 then '\\' :: 'u' :: Hex.fixed 4 c.toNat
      else '\\' :: 'U' :: Hex.fixed 8 c.toNat

def escape (shown : Char → Bool) (quote : Char) : Piece → List Char
  | .scalar c => escapeChar shown quote c
  | .stray b => '\\' :: 'x' :: Hex.ofByte b

def ofPieces (shown : Char → Bool) (quote : Char) (pieces : List Piece) : String :=
  String.ofList (quote :: pieces.flatMap (escape shown quote) ++ [quote])

def ofBytes (bytes : List UInt8) : String :=
  ofPieces Printable.isPrintable '"' (Utf8.pieces bytes)

def ofString (s : String) : String :=
  ofPieces Printable.isPrintable '"' (s.toList.map Piece.scalar)

def ofChar (c : Char) : String := ofPieces Printable.isPrintable '\'' [.scalar c]

def asciiOfString (s : String) : String := ofPieces isPlainAscii '"' (s.toList.map Piece.scalar)

def asciiOfChar (c : Char) : String := ofPieces isPlainAscii '\'' [.scalar c]

/-! ### Raw quotes -/

def rawQuote : Char := Char.ofNat 0x60

/-- Whether a character may stand between raw quotes, where nothing is escaped. -/
def isRaw (c : Char) : Bool :=
  c != rawQuote && c != Char.ofNat 0x7F && c != Char.ofNat 0xFEFF && (' ' ≤ c || c == '\t')

def raw? (s : String) : Option String :=
  if s.toList.all isRaw then some (String.ofList (rawQuote :: s.toList ++ [rawQuote])) else none

end Linkage.Quoted
