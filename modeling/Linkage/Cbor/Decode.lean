import Linkage.Cbor.Item

/-!
# Well-formed bytes

Reads one data item from the front of a byte string. Heads need not be in shortest form and lengths
need not be definite. Arrays and maps are limited in size, and items in how deep they nest: every
array and map takes a level, and so does every tag directly inside another one.
-/

namespace Linkage.Cbor

structure Head where
  major : Nat
  info : Nat
  value : Nat
  deriving DecidableEq, Repr

def Head.isIndefinite (h : Head) : Bool := h.info == 31

def maxElements : Nat := 131072

def maxLevels : Nat := 32

def split (count : Nat) (bytes : List UInt8) : Option (List UInt8 × List UInt8) :=
  let front := bytes.take count
  if front.length = count then some (front, bytes.drop count) else none

def argumentWidth (info : Nat) : Nat :=
  if info = 24 then 1 else if info = 25 then 2 else if info = 26 then 4
  else if info = 27 then 8 else 0

/-- Refuses additional information that is reserved, and an indefinite length where there is none. A
simple value below 32 has a one-byte form only. -/
def readHead : List UInt8 → Option (Head × List UInt8)
  | [] => none
  | b :: rest => do
    let major := b.toNat / 32
    let info := b.toNat % 32
    if info < 24 then some (⟨major, info, info⟩, rest)
    else if info = 31 then
      if major = 2 ∨ major = 3 ∨ major = 4 ∨ major = 5 then some (⟨major, info, 0⟩, rest) else none
    else if 27 < info then none
    else
      let (argument, rest) ← split (argumentWidth info) rest
      let value := natOfBytes argument
      if major = 7 ∧ info = 24 ∧ value < 32 then none else some (⟨major, info, value⟩, rest)

/-- Definite chunks of one major type up to the break that ends them. -/
def readChunks (major : Nat) : (steps : Nat) → List (List UInt8) → List UInt8 →
    Option (List (List UInt8) × List UInt8)
  | 0, _, _ => none
  | _, chunks, 0xFF :: rest => some (chunks.reverse, rest)
  | steps + 1, chunks, bytes => do
    let (h, rest) ← readHead bytes
    if h.major ≠ major ∨ h.isIndefinite then none
    else
      let (chunk, rest) ← split h.value rest
      readChunks major steps (chunk :: chunks) rest

def readString (h : Head) (bytes : List UInt8) : Option (List (List UInt8) × List UInt8) :=
  if h.isIndefinite then readChunks h.major (bytes.length + 1) [] bytes
  else (split h.value bytes).map fun (chunk, rest) => ([chunk], rest)

/-- `count` items in a row, after those in `items`, the latest first. -/
def readTimes (read : List UInt8 → Option (Item × List UInt8)) : (count : Nat) → List Item →
    List UInt8 → Option (List Item × List UInt8)
  | 0, items, bytes => some (items.reverse, bytes)
  | count + 1, items, bytes => do
    let (item, rest) ← read bytes
    readTimes read count (item :: items) rest

def readUntilBreak (read : List UInt8 → Option (Item × List UInt8)) : (steps : Nat) → List Item →
    List UInt8 → Option (List Item × List UInt8)
  | 0, _, _ => none
  | _, items, 0xFF :: rest => some (items.reverse, rest)
  | steps + 1, items, bytes => do
    let (item, rest) ← read bytes
    readUntilBreak read steps (item :: items) rest

/-- Items in a row as keys and values; an odd one is left over. -/
def pairs : List Item → Option (List (Item × Item))
  | [] => some []
  | [_] => none
  | key :: value :: rest => (pairs rest).map ((key, value) :: ·)

/-- The items inside an array, or inside a map that takes `width` of them for an entry. -/
def readContents (read : List UInt8 → Option (Item × List UInt8)) (h : Head) (width : Nat)
    (bytes : List UInt8) : Option (List Item × List UInt8) :=
  if h.isIndefinite then do
    let (items, rest) ← readUntilBreak read (bytes.length + 1) [] bytes
    if items.length / width ≤ maxElements then some (items, rest) else none
  else if h.value ≤ maxElements then readTimes read (width * h.value) [] bytes
  else none

def startsWithTag : List UInt8 → Bool
  | [] => false
  | b :: _ => b.toNat / 32 == 6

/-- Reads an item that may nest `levels` deep. Every step into an item follows at least one byte of
head, so as many steps as there are bytes are enough. -/
def readItem : (steps levels : Nat) → List UInt8 → Option (Item × List UInt8)
  | 0, _, _ => none
  | steps + 1, levels, bytes => do
    let (h, rest) ← readHead bytes
    match h.major with
    | 0 => return (.unsigned h.value, rest)
    | 1 => return (.negative h.value, rest)
    | 2 =>
      let (chunks, rest) ← readString h rest
      return (.bytes chunks.flatten, rest)
    | 3 =>
      let (chunks, rest) ← readString h rest
      return (.text chunks, rest)
    | 4 =>
      if levels = 0 then none
      else
        let (items, rest) ← readContents (readItem steps (levels - 1)) h 1 rest
        return (.array items, rest)
    | 5 =>
      if levels = 0 then none
      else
        let (items, rest) ← readContents (readItem steps (levels - 1)) h 2 rest
        let entries ← pairs items
        return (.map entries, rest)
    | 6 =>
      if startsWithTag rest then
        if levels = 0 then none
        else
          let (content, rest) ← readItem steps (levels - 1) rest
          return (.tag h.value content, rest)
      else
        let (content, rest) ← readItem steps levels rest
        return (.tag h.value content, rest)
    | _ =>
      match h.info with
      | 25 => return (.half h.value, rest)
      | 26 => return (.single h.value, rest)
      | 27 => return (.double (UInt64.ofNat h.value), rest)
      | _ => return (.simple (UInt8.ofNat h.value), rest)

def Item.decode (bytes : List UInt8) : Option Item :=
  match readItem (bytes.length + 1) maxLevels bytes with
  | some (item, []) => some item
  | _ => none

end Linkage.Cbor
