import Linkage.Cbor.Decode
import Linkage.Float.Double
import Linkage.Text.Utf8

/-!
# Items as values

How an item is taken for a value of a known kind. A null or undefined item stands for the zero
value of every kind. Tags are dropped, except that a tag of the date, time or number family has to
suit its content. A record is a map whose keys are small whole numbers, also written as text; of
keys that repeat the first one counts, and keys that are not known are passed over.
-/

namespace Linkage.Cbor.Item

def suits (number : Nat) (content : Item) : Bool :=
  match number, content with
  | 0, .text _ => true
  | 0, _ => false
  | 1, .unsigned _ | 1, .negative _ | 1, .half _ | 1, .single _ | 1, .double _ => true
  | 1, _ => false
  | 2, .bytes _ | 3, .bytes _ => true
  | 2, _ | 3, _ => false
  | _, _ => true

/-- The item under its tags. Big numbers become plain ones, if they are small enough. -/
def untagged : Item → Option Item
  | .tag number content =>
    if suits number content then
      match number, content with
      | 2, .bytes b => if natOfBytes b < Nat.pow 2 64 then some (.unsigned (natOfBytes b)) else none
      | 3, .bytes b => if natOfBytes b < Nat.pow 2 63 then some (.negative (natOfBytes b)) else none
      | _, _ => untagged content
    else none
  | item => some item

def isNull : Item → Bool
  | .simple code => code == 22 || code == 23
  | _ => false

def isBool : Item → Bool
  | .simple code => code == 20 || code == 21
  | _ => false

/-- A whole number. Simple values without a meaning of their own count as their code. -/
def int? : Item → Option Int
  | .unsigned n => some n
  | .negative n => some (-1 - n)
  | .simple code => some code.toNat
  | _ => none

def text? : Item → Option (List UInt8)
  | .text chunks => if chunks.all Utf8.isValid then some chunks.flatten else none
  | _ => none

/-- A kind of value: its zero, and how an untagged item that is not null is read. -/
structure Kind (α : Type) where
  zero : α
  read : Item → Option α

namespace Kind

variable {α : Type}

def ofItem (k : Kind α) (item : Item) : Option α :=
  match item.untagged with
  | none => none
  | some item => if item.isNull then some k.zero else k.read item

def int64 : Kind Int64 where
  zero := 0
  read item :=
    if item.isBool then none
    else match item.int? with
      | some n => if -Int.pow 2 63 ≤ n ∧ n < Int.pow 2 63 then some (Int64.ofInt n) else none
      | none => none

def byte : Kind UInt8 where
  zero := 0
  read item :=
    if item.isBool then none
    else match item.int? with
      | some n => if 0 ≤ n ∧ n < 256 then some (UInt8.ofNat n.toNat) else none
      | none => none

def bool : Kind Bool where
  zero := false
  read
    | .simple code => if code == 20 then some false else if code == 21 then some true else none
    | _ => none

def double : Kind Double where
  zero := Double.zero
  read item :=
    match item with
    | .half bits => some (Double.widen .half bits)
    | .single bits => some (Double.widen .single bits)
    | .double bits => some ⟨bits⟩
    | .negative n => if n < Nat.pow 2 63 then some (Double.ofWhole true (n + 1)) else none
    | item => if item.isBool then none else item.int?.map fun n => Double.ofWhole false n.toNat

def bytes : Kind (List UInt8) where
  zero := []
  read := text?

def string : Kind String where
  zero := ""
  read item := item.text?.bind Utf8.text?

/-- A list that is null is not the same as an empty one. -/
def list (k : Kind α) : Kind (Option (List α)) where
  zero := none
  read
    | .array items => (items.mapM k.ofItem).map some
    | _ => none

end Kind

/-! ### Records -/

def isKey : Item → Bool
  | .unsigned _ => true
  | .negative n => n < Nat.pow 2 63
  | .text chunks => chunks.all Utf8.isValid
  | _ => false

def isKeyOf (key : Nat) : Item → Bool
  | .unsigned n => n == key
  | .text chunks => chunks.flatten == Utf8.bytesOf (toString key)
  | _ => false

def entries? : Item → Option (List (Item × Item))
  | .map entries => if entries.all (·.1.isKey) then some entries else none
  | _ => none

def field {α : Type} (entries : List (Item × Item)) (key : Nat) (k : Kind α) : Option α :=
  match entries.find? (·.1.isKeyOf key) with
  | some (_, value) => k.ofItem value
  | none => some k.zero

end Linkage.Cbor.Item
