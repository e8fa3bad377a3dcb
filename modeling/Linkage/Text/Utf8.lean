/-!
# Bytes read as UTF-8

A byte string need not be UTF-8 throughout. `pieces` reads it as scalar values as far as it is, and
as single stray bytes where no scalar value starts.
-/

namespace Linkage.Utf8

inductive Piece where
  | scalar (c : Char)
  | stray (b : UInt8)
  deriving DecidableEq, Repr

def isTail (b : UInt8) : Bool := 0x80 ≤ b && b ≤ 0xBF

def tailBits (b : UInt8) : Nat := b.toNat % 64

/-- The scalar value that starts at the byte `a`, and how many of the bytes after `a` it takes.
Overlong forms and surrogates start none. -/
def scalarAt (a : UInt8) (rest : List UInt8) : Option (Char × Nat) :=
  if a < 0x80 then some (Char.ofNat a.toNat, 0)
  else match rest with
    | b :: rest =>
      if 0xC2 ≤ a && a ≤ 0xDF && isTail b then
        some (Char.ofNat (a.toNat % 32 * 64 + tailBits b), 1)
      else match rest with
        | c :: rest =>
          let second := if a == 0xE0 then 0xA0 ≤ b && b ≤ 0xBF
            else if a == 0xED then 0x80 ≤ b && b ≤ 0x9F else isTail b
          if 0xE0 ≤ a && a ≤ 0xEF && second && isTail c then
            some (Char.ofNat (a.toNat % 16 * 4096 + tailBits b * 64 + tailBits c), 2)
          else match rest with
            | d :: _ =>
              let second := if a == 0xF0 then 0x90 ≤ b && b ≤ 0xBF
                else if a == 0xF4 then 0x80 ≤ b && b ≤ 0x8F else isTail b
              if 0xF0 ≤ a && a ≤ 0xF4 && second && isTail c && isTail d then
                some (Char.ofNat (a.toNat % 8 * 262144 + tailBits b * 4096 + tailBits c * 64
                  + tailBits d), 3)
              else none
            | [] => none
        | [] => none
    | [] => none

/-- The pieces of a byte string whose first `skip` bytes belong to a scalar value already read. -/
def piecesAfter : (skip : Nat) → List UInt8 → List Piece
  | _, [] => []
  | skip + 1, _ :: rest => piecesAfter skip rest
  | 0, a :: rest =>
    match scalarAt a rest with
    | some (c, more) => .scalar c :: piecesAfter more rest
    | none => .stray a :: piecesAfter 0 rest

def pieces (bytes : List UInt8) : List Piece := piecesAfter 0 bytes

def bytesOf (s : String) : List UInt8 := s.toUTF8.toList

def text? (bytes : List UInt8) : Option String := String.fromUTF8? ⟨bytes.toArray⟩

def isValid (bytes : List UInt8) : Bool := (text? bytes).isSome

end Linkage.Utf8
