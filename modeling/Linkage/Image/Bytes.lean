import Linkage.Cbor.Value
import Linkage.Image.Basic

/-!
# The bytes of an image

An image is a data item: a record for each part, with small whole numbers for keys. Optional fields
are left out when they are zero or empty; a zero of either sign is zero. Numbers take the narrowest
format that holds them exactly.
-/

namespace Linkage.Image

open Cbor (Item)

/-! ### Writing -/

def always (key : Nat) (value : Item) : List (Item × Item) := [(.unsigned key, value)]

def omitting (isEmpty : Bool) (key : Nat) (value : Item) : List (Item × Item) :=
  if isEmpty then [] else always key value

def intItem (n : Int64) : Item := .ofInt n.toInt

def byteItem (n : UInt8) : Item := .unsigned n.toNat

def stringItem (s : String) : Item := .ofText (Utf8.bytesOf s)

def listItem {α : Type} (item : α → Item) : Option (List α) → Item
  | none => .null
  | some xs => .array (xs.map item)

/-- What is no number is written in one way, and so are the infinities. -/
def floatItem (x : Double) : Item :=
  if x.isNaN then .half 0x7E00
  else if x.isInfinite then .half (if x.isNegative then 0xFC00 else 0x7C00)
  else match x.narrow? .half with
    | some bits => .half bits
    | none =>
      match x.narrow? .single with
      | some bits => .single bits
      | none => .double x.bits

def isEmptyList {α : Type} (xs : Option (List α)) : Bool := (xs.getD []).isEmpty

def Class.toItem (c : Class) : Item :=
  .map (always 1 (stringItem c.name) ++ omitting (c.super == 0) 2 (intItem c.super))

def Member.toItem (m : Member) : Item :=
  .map (always 1 (byteItem m.kind) ++ always 2 (intItem m.owner) ++
    omitting m.name.isEmpty 3 (stringItem m.name) ++
    omitting m.type.isEmpty 4 (stringItem m.type) ++
    omitting (isEmptyList m.params) 5 (listItem stringItem m.params))

def Instr.toItem (i : Instr) : Item :=
  .map (always 1 (byteItem i.op) ++ omitting i.type.isEmpty 2 (stringItem i.type) ++
    omitting (i.slot == 0) 3 (intItem i.slot) ++ omitting (i.sub == 0) 4 (byteItem i.sub) ++
    omitting (i.member == 0) 5 (intItem i.member) ++
    omitting (isEmptyList i.targets) 6 (listItem intItem i.targets) ++
    omitting (!i.resolved) 7 (.bool i.resolved) ++ omitting (i.int == 0) 8 (intItem i.int) ++
    omitting i.float.isZero 9 (floatItem i.float) ++ omitting (!i.bool) 10 (.bool i.bool) ++
    omitting i.str.isEmpty 11 (.ofText i.str))

def Block.toItem (b : Block) : Item :=
  .map (always 1 (listItem Instr.toItem b.code) ++ always 2 (listItem intItem b.succs) ++
    omitting (!b.fixed) 3 (.bool b.fixed))

def Body.toItem (b : Body) : Item :=
  .map (always 1 (intItem b.member) ++ always 2 (intItem b.root))

def toItem (img : Image) : Item :=
  .map (always 1 (byteItem img.version) ++ omitting img.runId.isEmpty 2 (stringItem img.runId) ++
    always 3 (listItem Class.toItem img.classes) ++ always 4 (listItem Member.toItem img.members) ++
    always 5 (listItem Block.toItem img.blocks) ++ always 6 (listItem Body.toItem img.bodies) ++
    always 7 (intItem img.entry) ++ omitting (!img.linked) 8 (.bool img.linked) ++
    omitting (isEmptyList img.reachable) 9 (listItem intItem img.reachable))

def marshal (img : Image) : List UInt8 := img.toItem.encode

/-! ### Reading -/

open Cbor.Item (Kind entries? field)

def Class.schema : Kind Class where
  zero := {}
  read item := do
    let es ← entries? item
    return { name := ← field es 1 .string, super := ← field es 2 .int64 }

def Member.schema : Kind Member where
  zero := {}
  read item := do
    let es ← entries? item
    return {
      kind := ← field es 1 .byte
      owner := ← field es 2 .int64
      name := ← field es 3 .string
      type := ← field es 4 .string
      params := ← field es 5 (.list .string) }

def Instr.schema : Kind Instr where
  zero := {}
  read item := do
    let es ← entries? item
    return {
      op := ← field es 1 .byte
      type := ← field es 2 .string
      slot := ← field es 3 .int64
      sub := ← field es 4 .byte
      member := ← field es 5 .int64
      targets := ← field es 6 (.list .int64)
      resolved := ← field es 7 .bool
      int := ← field es 8 .int64
      float := ← field es 9 .double
      bool := ← field es 10 .bool
      str := ← field es 11 .bytes }

def Block.schema : Kind Block where
  zero := {}
  read item := do
    let es ← entries? item
    return {
      code := ← field es 1 (.list Instr.schema)
      succs := ← field es 2 (.list .int64)
      fixed := ← field es 3 .bool }

def Body.schema : Kind Body where
  zero := {}
  read item := do
    let es ← entries? item
    return { member := ← field es 1 .int64, root := ← field es 2 .int64 }

def schema : Kind Image where
  zero := {}
  read item := do
    let es ← entries? item
    return {
      version := ← field es 1 .byte
      runId := ← field es 2 .string
      classes := ← field es 3 (.list Class.schema)
      members := ← field es 4 (.list Member.schema)
      blocks := ← field es 5 (.list Block.schema)
      bodies := ← field es 6 (.list Body.schema)
      entry := ← field es 7 .int64
      linked := ← field es 8 .bool
      reachable := ← field es 9 (.list .int64) }

def unmarshal (bytes : List UInt8) : Option Image := do
  let item ← Item.decode bytes
  schema.ofItem item

end Linkage.Image
