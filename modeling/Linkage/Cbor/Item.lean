/-!
# Data items

The data items of CBOR and their canonical bytes: every head in its shortest form, every length
definite.
-/

namespace Linkage.Cbor

inductive Item where
  /-- A whole number below 2^64. -/
  | unsigned (n : Nat)
  /-- The number `-1 - n`. -/
  | negative (n : Nat)
  | bytes (b : List UInt8)
  /-- Text as the chunks it came in; a definite length makes one chunk. -/
  | text (chunks : List (List UInt8))
  | array (items : List Item)
  | map (entries : List (Item × Item))
  | tag (number : Nat) (content : Item)
  | simple (code : UInt8)
  | half (bits : Nat)
  | single (bits : Nat)
  | double (bits : UInt64)
  deriving Repr

def bigEndian : (count : Nat) → Nat → List UInt8
  | 0, _ => []
  | count + 1, n => bigEndian count (n / 256) ++ [UInt8.ofNat n]

def natOfBytes (bytes : List UInt8) : Nat := bytes.foldl (fun n b => n * 256 + b.toNat) 0

def initial (major info : Nat) : UInt8 := UInt8.ofNat (major * 32 + info)

/-- The shortest head of a major type with an argument below 2^64. -/
def head (major n : Nat) : List UInt8 :=
  if n < 24 then [initial major n]
  else if n < Nat.pow 2 8 then initial major 24 :: bigEndian 1 n
  else if n < Nat.pow 2 16 then initial major 25 :: bigEndian 2 n
  else if n < Nat.pow 2 32 then initial major 26 :: bigEndian 4 n
  else initial major 27 :: bigEndian 8 n

namespace Item

def null : Item := .simple 22

def bool (b : Bool) : Item := .simple (if b then 21 else 20)

def ofInt (n : Int) : Item :=
  if 0 ≤ n then .unsigned n.toNat else .negative (-1 - n).toNat

def ofText (bytes : List UInt8) : Item := .text [bytes]

mutual

def encode : Item → List UInt8
  | .unsigned n => head 0 n
  | .negative n => head 1 n
  | .bytes b => head 2 b.length ++ b
  | .text chunks => head 3 chunks.flatten.length ++ chunks.flatten
  | .array items => head 4 items.length ++ encodeItems items
  | .map entries => head 5 entries.length ++ encodeEntries entries
  | .tag number content => head 6 number ++ encode content
  | .simple code =>
    if code < 24 then [initial 7 code.toNat] else [initial 7 24, code]
  | .half bits => initial 7 25 :: bigEndian 2 bits
  | .single bits => initial 7 26 :: bigEndian 4 bits
  | .double bits => initial 7 27 :: bigEndian 8 bits.toNat

def encodeItems : List Item → List UInt8
  | [] => []
  | item :: rest => encode item ++ encodeItems rest

def encodeEntries : List (Item × Item) → List UInt8
  | [] => []
  | (key, value) :: rest => encode key ++ encode value ++ encodeEntries rest

end

end Item

end Linkage.Cbor
