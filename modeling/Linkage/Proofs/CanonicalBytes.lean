import Linkage.Proofs.ReadLimits
import Linkage.Proofs.Refusals

/-!
# Canonical bytes

Every image that is read from bytes is within the limits of the format, so it can be written and
read again. Many byte strings are read as the same image, but only one of them is written: what is
written for an image that was read is written again for what is read from it.
-/

namespace Linkage.Image

-- ---------------------------------------------------------------------------
-- What is read can be written
-- ---------------------------------------------------------------------------

theorem Within.imp {P Q : α → Prop} {xs : Option (List α)} (hPQ : ∀ a, P a → Q a)
    (h : Within P xs) : Within Q xs := by
  intro l hl
  obtain ⟨hlen, hall⟩ := h l hl
  exact ⟨hlen, fun a ha => hPQ a (hall a ha)⟩

section
variable {n : Nat}

theorem Member.Bounded.fits {m : Member} (hn : n < 2 ^ 64) (h : m.Bounded n) : m.Fits where
  name := Nat.lt_of_le_of_lt h.name hn
  type := Nat.lt_of_le_of_lt h.type hn
  params := h.params.imp fun _ hs => Nat.lt_of_le_of_lt hs hn

theorem Instr.Bounded.fits {i : Instr} (hn : n < 2 ^ 64) (h : i.Bounded n) : i.Fits where
  type := Nat.lt_of_le_of_lt h.type hn
  targets := h.targets
  str := Nat.lt_of_le_of_lt h.str.1 hn
  valid := h.str.2

theorem Block.Bounded.fits {b : Block} (hn : n < 2 ^ 64) (h : b.Bounded n) : b.Fits where
  code := h.code.imp fun _ hi => hi.fits hn
  succs := h.succs

theorem Bounded.fits {img : Image} (hn : n < 2 ^ 64) (h : img.Bounded n) : img.Fits where
  runId := Nat.lt_of_le_of_lt h.runId hn
  classes := h.classes.imp fun _ hc => Nat.lt_of_le_of_lt hc hn
  members := h.members.imp fun _ hm => hm.fits hn
  blocks := h.blocks.imp fun _ hb => hb.fits hn
  bodies := h.bodies
  reachable := h.reachable

end

theorem fits_of_unmarshal {bytes : List UInt8} {img : Image} (hlen : bytes.length < 2 ^ 64)
    (h : unmarshal bytes = some img) : img.Fits :=
  (bounded_of_unmarshal h).fits hlen

-- ---------------------------------------------------------------------------
-- Writing and reading in turn
-- ---------------------------------------------------------------------------

/-- The format round trips. An image within its limits is read back in normal form, in which empty
lists of parameters, targets and members in reach are none, zero has no sign, and what is no number
is the quiet one. Bytes that are read as an image are replaced by those written for it once and for
all: these are read as well, and written again as they are. No byte string in memory is as long as
2^64. -/
theorem marshal_round_trips :
    (∀ img : Image, img.Fits → unmarshal (marshal img) = some img.normal) ∧
      ∀ bytes img, bytes.length < 2 ^ 64 → unmarshal bytes = some img →
        ∃ img', unmarshal (marshal img) = some img' ∧ marshal img' = marshal img := by
  refine ⟨fun img h => unmarshal_marshal h, fun bytes img hlen h => ?_⟩
  exact ⟨img.normal, unmarshal_marshal (fits_of_unmarshal hlen h), marshal_normal img⟩

/-- An image in which everything occurs that the normal form changes, and lists that are none or
empty and stay so. -/
def looseImage : Image where
  version := 1
  members := some [{ kind := 2, owner := -1, name := "é", params := some [] }]
  blocks := some [
    { code := some [
        { op := 2, targets := some [], int := -9223372036854775808
          float := ⟨0x8000000000000000⟩ },
        { float := ⟨0x7FF0000000000001⟩ }] },
    { code := some [], succs := some [] }]
  bodies := some []
  reachable := some []

/-- Bytes that this image is read from but that are not written for it: they have a key in text and
spell out what is empty or zero. -/
def looseBytes : List UInt8 :=
  Cbor.Item.encode (.map [
    (stringItem "1", .unsigned 1),
    (.unsigned 4, .array [.map [(.unsigned 1, .unsigned 2), (.unsigned 2, .negative 0),
      (.unsigned 3, stringItem "é"), (.unsigned 5, .array [])]]),
    (.unsigned 5, .array [
      .map [(.unsigned 1, .array [
        .map [(.unsigned 1, .unsigned 2), (.unsigned 6, .array []),
          (.unsigned 8, .negative 9223372036854775807), (.unsigned 9, .double 0x8000000000000000)],
        .map [(.unsigned 9, .double 0x7FF0000000000001)]])],
      .map [(.unsigned 1, .array []), (.unsigned 2, .array [])]]),
    (.unsigned 6, .array []),
    (.unsigned 9, .array [])])

theorem marshal_round_trips_loose :
    looseImage.Fits ∧ unmarshal (marshal looseImage) = some looseImage.normal ∧
      looseImage.normal ≠ looseImage ∧
      looseBytes.length < 2 ^ 64 ∧ unmarshal looseBytes = some looseImage ∧
      marshal looseImage ≠ looseBytes ∧
      ∃ img', unmarshal (marshal looseImage) = some img' ∧ marshal img' = marshal looseImage := by
  have hlen : looseBytes.length < 2 ^ 64 := by decide +kernel
  have hread : unmarshal looseBytes = some looseImage := by decide +kernel
  have hfits := fits_of_unmarshal hlen hread
  exact ⟨hfits, marshal_round_trips.1 looseImage hfits, by decide, hlen, hread, by decide +kernel,
    marshal_round_trips.2 looseBytes looseImage hlen hread⟩

end Linkage.Image
