import Linkage.Cbor.Decode
import Mathlib.Algebra.Group.Int.Defs
import Mathlib.Algebra.Group.Nat.Defs
import Mathlib.Data.List.Basic

/-!
# Data items read back

Every item that fits the limits of the reader is read back from its bytes, whatever bytes follow.
Tags are not covered: nothing here writes one.
-/

namespace Linkage.Cbor

-- ---------------------------------------------------------------------------
-- Numbers and heads
-- ---------------------------------------------------------------------------

@[simp] theorem length_bigEndian (count n : Nat) : (bigEndian count n).length = count := by
  induction count generalizing n with
  | zero => rfl
  | succ count ih => simp [bigEndian, ih]

theorem natOfBytes_append (front : List UInt8) (b : UInt8) :
    natOfBytes (front ++ [b]) = natOfBytes front * 256 + b.toNat := by
  simp [natOfBytes]

theorem natOfBytes_bigEndian (count n : Nat) (h : n < 256 ^ count) :
    natOfBytes (bigEndian count n) = n := by
  induction count generalizing n with
  | zero =>
    obtain rfl : n = 0 := by simpa using h
    rfl
  | succ count ih =>
    have hn : n / 256 < 256 ^ count := by
      rw [Nat.pow_succ] at h
      exact Nat.div_lt_of_lt_mul (by omega)
    rw [bigEndian, natOfBytes_append, ih _ hn]
    simp only [UInt8.toNat_ofNat']
    omega

theorem split_append (front rest : List UInt8) :
    split front.length (front ++ rest) = some (front, rest) := by
  simp [split]

theorem toNat_initial (hm : major < 8) (hi : info < 32) :
    (initial major info).toNat = major * 32 + info := by
  simp only [initial, UInt8.toNat_ofNat']
  omega

theorem readHead_argument (hm : major < 8) (hi : 24 ≤ info) (hi' : info ≤ 27)
    (h : n < 256 ^ argumentWidth info) (hs : ¬ (major = 7 ∧ info = 24 ∧ n < 32))
    (rest : List UInt8) :
    readHead (initial major info :: bigEndian (argumentWidth info) n ++ rest) =
      some (⟨major, info, n⟩, rest) := by
  have hb := toNat_initial hm (show info < 32 by omega)
  have hmajor : (major * 32 + info) / 32 = major := by omega
  have hinfo : (major * 32 + info) % 32 = info := by omega
  have hsplit := split_append (bigEndian (argumentWidth info) n) rest
  rw [length_bigEndian] at hsplit
  simp only [readHead, List.cons_append, hb, hmajor, hinfo, hsplit, Option.bind_eq_bind,
    Option.bind_some, natOfBytes_bigEndian _ _ h]
  rw [if_neg (by omega), if_neg (by omega), if_neg (by omega), if_neg hs]

theorem readHead_initial (hm : major < 8) (hi : info < 24) (rest : List UInt8) :
    readHead (initial major info :: rest) = some (⟨major, info, info⟩, rest) := by
  have hb := toNat_initial hm (show info < 32 by omega)
  have hmajor : (major * 32 + info) / 32 = major := by omega
  have hinfo : (major * 32 + info) % 32 = info := by omega
  simp only [readHead, hb, hmajor, hinfo, if_pos hi]

theorem readHead_head (major : Nat) (hm : major < 7) (hn : n < 2 ^ 64) (rest : List UInt8) :
    ∃ info, info ≠ 31 ∧ readHead (head major n ++ rest) = some (⟨major, info, n⟩, rest) := by
  unfold head
  split
  case isTrue h => exact ⟨n, by omega, readHead_initial (by omega) h rest⟩
  split
  case isTrue h =>
    exact ⟨24, by decide, readHead_argument (by omega) (by decide) (by decide)
      (by simpa [argumentWidth] using h) (by omega) rest⟩
  split
  case isTrue h =>
    exact ⟨25, by decide, readHead_argument (by omega) (by decide) (by decide)
      (by simpa [argumentWidth] using h) (by omega) rest⟩
  split
  case isTrue h =>
    exact ⟨26, by decide, readHead_argument (by omega) (by decide) (by decide)
      (by simpa [argumentWidth] using h) (by omega) rest⟩
  exact ⟨27, by decide, readHead_argument (by omega) (by decide) (by decide)
    (by simpa [argumentWidth] using hn) (by omega) rest⟩

theorem length_head_pos (major n : Nat) : 0 < (head major n).length := by
  unfold head
  repeat' split
  all_goals simp

-- ---------------------------------------------------------------------------
-- Items in a row
-- ---------------------------------------------------------------------------

open Item (encode encodeItems encodeEntries)

theorem readTimes_encodeItems {read : List UInt8 → Option (Item × List UInt8)}
    (items : List Item) (hread : ∀ i ∈ items, ∀ rest, read (encode i ++ rest) = some (i, rest))
    (done : List Item) (rest : List UInt8) :
    readTimes read items.length done (encodeItems items ++ rest) =
      some (done.reverse ++ items, rest) := by
  induction items generalizing done with
  | nil => simp [readTimes, encodeItems]
  | cons i items ih =>
    have hi := hread i (by simp) (encodeItems items ++ rest)
    have hrest := ih (fun j hj => hread j (by simp [hj])) (i :: done)
    simp [readTimes, encodeItems, hi, hrest]

def inRow (entries : List (Item × Item)) : List Item := entries.flatMap fun e => [e.1, e.2]

theorem encodeEntries_eq (entries : List (Item × Item)) :
    encodeEntries entries = encodeItems (inRow entries) := by
  induction entries with
  | nil => rfl
  | cons e entries ih => simp_all [encodeEntries, inRow, encodeItems]

theorem length_inRow (entries : List (Item × Item)) :
    (inRow entries).length = 2 * entries.length := by
  induction entries with
  | nil => rfl
  | cons e entries ih =>
    simp only [inRow, List.flatMap_cons, List.length_append, List.length_cons] at ih ⊢
    simp only [ih, List.length_nil]
    omega

theorem pairs_inRow (entries : List (Item × Item)) : pairs (inRow entries) = some entries := by
  induction entries with
  | nil => rfl
  | cons e entries ih => simp_all [inRow, pairs]

theorem mem_inRow : i ∈ inRow entries ↔ ∃ e ∈ entries, i = e.1 ∨ i = e.2 := by
  simp [inRow]

theorem length_encode_le (h : i ∈ items) : (encode i).length ≤ (encodeItems items).length := by
  induction items with
  | nil => simp at h
  | cons j items ih =>
    rw [encodeItems, List.length_append]
    rcases List.mem_cons.mp h with rfl | h
    · omega
    · have := ih h
      omega

-- ---------------------------------------------------------------------------
-- Items
-- ---------------------------------------------------------------------------

/-- An untagged item whose numbers, lengths and sizes are in range, and which nests at most `levels`
deep. Text is in one chunk. -/
inductive Item.Fits : (levels : Nat) → Item → Prop
  | unsigned : n < 2 ^ 64 → Fits levels (.unsigned n)
  | negative : n < 2 ^ 64 → Fits levels (.negative n)
  | bytes {b} : b.length < 2 ^ 64 → Fits levels (.bytes b)
  | text {b} : b.length < 2 ^ 64 → Fits levels (.ofText b)
  | array {items} : items.length ≤ maxElements → (∀ i ∈ items, Fits levels i) →
      Fits (levels + 1) (.array items)
  | map {entries} : entries.length ≤ maxElements → (∀ e ∈ entries, Fits levels e.1) →
      (∀ e ∈ entries, Fits levels e.2) → Fits (levels + 1) (.map entries)
  | simple : code < 24 → Fits levels (.simple code)
  | half : bits < 2 ^ 16 → Fits levels (.half bits)
  | single : bits < 2 ^ 32 → Fits levels (.single bits)
  | double : Fits levels (.double bits)

theorem readContents_encodeItems {read : List UInt8 → Option (Item × List UInt8)} {h : Head}
    {items : List Item} (width : Nat) (hinfo : h.info ≠ 31)
    (hlen : items.length = width * h.value) (hvalue : h.value ≤ maxElements)
    (hread : ∀ i ∈ items, ∀ rest, read (encode i ++ rest) = some (i, rest)) (rest : List UInt8) :
    readContents read h width (encodeItems items ++ rest) = some (items, rest) := by
  have htimes := readTimes_encodeItems items hread [] rest
  rw [hlen] at htimes
  simpa [readContents, Head.isIndefinite, hinfo, hvalue] using htimes

theorem Item.length_encode_pos (item : Item) : 0 < item.encode.length := by
  cases item with
  | simple code =>
    rw [encode]
    split <;> simp
  | half | single | double => simp [encode]
  | unsigned n => exact length_head_pos 0 n
  | negative n => exact length_head_pos 1 n
  | bytes b =>
    have := length_head_pos 2 b.length
    simp only [encode, List.length_append]
    omega
  | text chunks =>
    have := length_head_pos 3 chunks.flatten.length
    simp only [encode, List.length_append]
    omega
  | array items =>
    have := length_head_pos 4 items.length
    simp only [encode, List.length_append]
    omega
  | map entries =>
    have := length_head_pos 5 entries.length
    simp only [encode, List.length_append]
    omega
  | tag number content =>
    have := length_head_pos 6 number
    simp only [encode, List.length_append]
    omega

/-- That a reader with as many steps as an item has bytes, and one more, reads it and nothing of
what follows. -/
def Item.ReadsBack (levels : Nat) (item : Item) : Prop :=
  ∀ steps rest, item.encode.length ≤ steps + 1 →
    readItem (steps + 1) levels (item.encode ++ rest) = some (item, rest)

attribute [simp] readItem

theorem readItem_of_mem (steps : Nat) (h : ∀ i ∈ items, Item.ReadsBack levels i)
    (hsteps : (encodeItems items).length ≤ steps) :
    ∀ i ∈ items, ∀ rest, readItem steps levels (encode i ++ rest) = some (i, rest) := by
  intro i hi rest
  have hpos := i.length_encode_pos
  have hle := length_encode_le hi
  obtain ⟨k, rfl⟩ : ∃ k, steps = k + 1 := ⟨steps - 1, by omega⟩
  exact h i hi k rest (by omega)

theorem readsBack_array (hlen : items.length ≤ maxElements)
    (h : ∀ i ∈ items, Item.ReadsBack levels i) : Item.ReadsBack (levels + 1) (.array items) := by
  intro steps rest hsteps
  simp only [encode, List.length_append] at hsteps
  have hpos := length_head_pos 4 items.length
  have hn : items.length < 2 ^ 64 := by unfold maxElements at hlen; omega
  obtain ⟨info, hinfo, hhead⟩ := readHead_head 4 (by decide) hn (encodeItems items ++ rest)
  -- the head takes at least one byte, so the steps that are left suffice for every element
  have hread := readItem_of_mem steps h (by omega)
  have hcontents := readContents_encodeItems (h := ⟨4, info, items.length⟩) 1 hinfo (by simp)
    hlen hread rest
  simp [encode, hhead, hcontents]

theorem readsBack_map {entries : List (Item × Item)} (hlen : entries.length ≤ maxElements)
    (h : ∀ i ∈ inRow entries, i.ReadsBack levels) :
    Item.ReadsBack (levels + 1) (.map entries) := by
  intro steps rest hsteps
  simp only [encode, encodeEntries_eq, List.length_append] at hsteps
  have hpos := length_head_pos 5 entries.length
  have hn : entries.length < 2 ^ 64 := by unfold maxElements at hlen; omega
  obtain ⟨info, hinfo, hhead⟩ :=
    readHead_head 5 (by decide) hn (encodeItems (inRow entries) ++ rest)
  have hread := readItem_of_mem steps h (by omega)
  have hcontents := readContents_encodeItems (h := ⟨5, info, entries.length⟩) 2 hinfo
    (length_inRow entries) hlen hread rest
  simp [encode, encodeEntries_eq, hhead, hcontents, pairs_inRow]

/-- An item with nothing inside: one step reads it, whatever levels are left. -/
def Item.Flat (item : Item) : Prop :=
  ∀ steps levels rest, readItem (steps + 1) levels (item.encode ++ rest) = some (item, rest)

theorem flat_unsigned (hn : n < 2 ^ 64) : (Item.unsigned n).Flat := by
  intro steps levels rest
  obtain ⟨info, -, hhead⟩ := readHead_head 0 (by decide) hn rest
  simp [encode, hhead]

theorem flat_negative (hn : n < 2 ^ 64) : (Item.negative n).Flat := by
  intro steps levels rest
  obtain ⟨info, -, hhead⟩ := readHead_head 1 (by decide) hn rest
  simp [encode, hhead]

theorem flat_bytes {b : List UInt8} (hb : b.length < 2 ^ 64) : (Item.bytes b).Flat := by
  intro steps levels rest
  obtain ⟨info, hinfo, hhead⟩ := readHead_head 2 (by decide) hb (b ++ rest)
  simp [encode, hhead, readString, Head.isIndefinite, hinfo, split_append]

theorem flat_text {b : List UInt8} (hb : b.length < 2 ^ 64) : (Item.ofText b).Flat := by
  intro steps levels rest
  obtain ⟨info, hinfo, hhead⟩ := readHead_head 3 (by decide) hb (b ++ rest)
  simp [encode, Item.ofText, hhead, readString, Head.isIndefinite, hinfo, split_append]

theorem flat_simple {code : UInt8} (hc : code < 24) : (Item.simple code).Flat := by
  intro steps levels rest
  have hlt : code.toNat < 24 := by simpa [UInt8.lt_iff_toNat_lt] using hc
  have hhead := readHead_initial (show 7 < 8 by decide) hlt rest
  simp only [readItem, encode, hc, ↓reduceIte, List.cons_append, List.nil_append, hhead,
    Option.bind_eq_bind, Option.bind_some]
  split <;> simp_all

theorem flat_half (hb : bits < 2 ^ 16) : (Item.half bits).Flat := by
  intro steps levels rest
  have hhead := readHead_argument (n := bits) (show 7 < 8 by decide) (show 24 ≤ 25 by decide)
    (by decide) (by simpa [argumentWidth] using hb) (by omega) rest
  simp only [argumentWidth] at hhead
  simp_all [encode]

theorem flat_single (hb : bits < 2 ^ 32) : (Item.single bits).Flat := by
  intro steps levels rest
  have hhead := readHead_argument (n := bits) (show 7 < 8 by decide) (show 24 ≤ 26 by decide)
    (by decide) (by simpa [argumentWidth] using hb) (by omega) rest
  simp only [argumentWidth] at hhead
  simp_all [encode]

theorem flat_double (bits : UInt64) : (Item.double bits).Flat := by
  intro steps levels rest
  have hhead := readHead_argument (n := bits.toNat) (show 7 < 8 by decide)
    (show 24 ≤ 27 by decide) (by decide) (by simpa [argumentWidth] using bits.toNat_lt)
    (by omega) rest
  simp only [argumentWidth] at hhead
  simp_all [encode]

theorem Item.Flat.readsBack (h : Item.Flat item) : item.ReadsBack levels :=
  fun steps rest _ => h steps levels rest

theorem Item.Fits.readsBack (h : Item.Fits levels item) : item.ReadsBack levels := by
  induction h with
  | unsigned hn => exact (flat_unsigned hn).readsBack
  | negative hn => exact (flat_negative hn).readsBack
  | bytes hb => exact (flat_bytes hb).readsBack
  | text hb => exact (flat_text hb).readsBack
  | array hlen _ ih => exact readsBack_array hlen ih
  | map hlen _ _ ihk ihv =>
    refine readsBack_map hlen fun i hi => ?_
    obtain ⟨e, he, rfl | rfl⟩ := mem_inRow.mp hi
    · exact ihk e he
    · exact ihv e he
  | simple hc => exact (flat_simple hc).readsBack
  | half hb => exact (flat_half hb).readsBack
  | single hb => exact (flat_single hb).readsBack
  | double => exact (flat_double _).readsBack

theorem Item.decode_encode (h : Item.Fits maxLevels item) :
    Item.decode item.encode = some item := by
  have hread := h.readsBack item.encode.length [] (by omega)
  simp only [List.append_nil] at hread
  rw [Item.decode, hread]

end Linkage.Cbor
