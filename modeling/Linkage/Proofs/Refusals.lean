import Linkage.Proofs.ImageBytes

/-!
# Images that are refused

The bytes of an image are read back as that image, in normal form, or else they are refused: going
over a limit of the reader never makes it take one thing for another. Neither does the normal form
lose anything that is written.
-/

namespace Linkage

-- ---------------------------------------------------------------------------
-- Items
-- ---------------------------------------------------------------------------

namespace Cbor

open Item (encode encodeItems encodeEntries)

/-- An item that is in order apart from how large it is and how deep it nests. -/
inductive Item.Proper : Item → Prop
  | flat {item} : item.Flat → Proper item
  | text {b} : Proper (.ofText b)
  | array {items} : (∀ i ∈ items, Proper i) → Proper (.array items)
  | map {entries} : (∀ i ∈ inRow entries, Proper i) → Proper (.map entries)

/-- A reader reads an item and nothing of what follows, if it reads anything. -/
def Item.ReadsOnly (read : List UInt8 → Option (Item × List UInt8)) (item : Item) : Prop :=
  ∀ rest x tail, read (item.encode ++ rest) = some (x, tail) → x = item ∧ tail = rest

theorem length_le_encodeItems (items : List Item) :
    items.length ≤ (encodeItems items).length := by
  induction items with
  | nil => exact Nat.zero_le _
  | cons i items ih =>
    have hpos := i.length_encode_pos
    simp only [encodeItems, List.length_append, List.length_cons]
    omega

section
variable {read : List UInt8 → Option (Item × List UInt8)} {items found done : List Item}
  {rest tail : List UInt8}

theorem readTimes_only (h : ∀ i ∈ items, i.ReadsOnly read)
    (hread : readTimes read items.length done (encodeItems items ++ rest) = some (found, tail)) :
    found = done.reverse ++ items ∧ tail = rest := by
  induction items generalizing done with
  | nil =>
    obtain ⟨rfl, rfl⟩ := Prod.mk.inj (Option.some.inj hread)
    simp [encodeItems]
  | cons i items ih =>
    rw [encodeItems, List.append_assoc] at hread
    obtain ⟨⟨x, next⟩, hx, hread⟩ := Option.bind_eq_some_iff.mp hread
    obtain ⟨rfl, rfl⟩ := h i (by simp) _ x next hx
    obtain ⟨rfl, rfl⟩ := ih (fun j hj => h j (by simp [hj])) hread
    simp

theorem readContents_only {head : Head} {width : Nat} (hinfo : head.info ≠ 31)
    (hlen : items.length = width * head.value) (h : ∀ i ∈ items, i.ReadsOnly read)
    (hread : readContents read head width (encodeItems items ++ rest) = some (found, tail)) :
    found = items ∧ tail = rest := by
  simp only [readContents, Head.isIndefinite, beq_eq_false_iff_ne.mpr hinfo, Bool.false_eq_true,
    ↓reduceIte] at hread
  split at hread
  · rw [← hlen] at hread
    simpa using readTimes_only h hread
  · cases hread

end

theorem readsOnly_of_zero (item : Item) : item.ReadsOnly (readItem 0 levels) := by
  intro rest x tail hread
  cases hread

theorem Item.Flat.readsOnly {item : Item} (h : item.Flat) :
    item.ReadsOnly (readItem steps levels) := by
  cases steps with
  | zero => exact readsOnly_of_zero item
  | succ steps =>
    intro rest x tail hread
    exact Prod.mk.inj (Option.some.inj (hread.symm.trans (h steps levels rest)))

theorem readsOnly_array {items : List Item} (hlen : items.length < 2 ^ 64)
    (h : ∀ i ∈ items, ∀ steps levels, i.ReadsOnly (readItem steps levels)) :
    (Item.array items).ReadsOnly (readItem steps levels) := by
  cases steps with
  | zero => exact readsOnly_of_zero _
  | succ steps =>
    intro rest x tail hread
    obtain ⟨info, hinfo, hhead⟩ := readHead_head 4 (by decide) hlen (encodeItems items ++ rest)
    simp only [readItem, encode, List.append_assoc, hhead, Option.bind_eq_bind,
      Option.bind_some] at hread
    split at hread
    · cases hread
    · obtain ⟨⟨found, next⟩, hfound, hread⟩ := Option.bind_eq_some_iff.mp hread
      obtain ⟨rfl, rfl⟩ := Prod.mk.inj (Option.some.inj hread)
      obtain ⟨rfl, rfl⟩ := readContents_only hinfo (by simp) (fun i hi => h i hi _ _) hfound
      exact ⟨rfl, rfl⟩

theorem readsOnly_map {entries : List (Item × Item)} (hlen : entries.length < 2 ^ 64)
    (h : ∀ i ∈ inRow entries, ∀ steps levels, i.ReadsOnly (readItem steps levels)) :
    (Item.map entries).ReadsOnly (readItem steps levels) := by
  cases steps with
  | zero => exact readsOnly_of_zero _
  | succ steps =>
    intro rest x tail hread
    obtain ⟨info, hinfo, hhead⟩ :=
      readHead_head 5 (by decide) hlen (encodeItems (inRow entries) ++ rest)
    simp only [readItem, encode, encodeEntries_eq, List.append_assoc, hhead, Option.bind_eq_bind,
      Option.bind_some] at hread
    split at hread
    · cases hread
    · obtain ⟨⟨found, next⟩, hfound, hread⟩ := Option.bind_eq_some_iff.mp hread
      obtain ⟨es, hes, hread⟩ := Option.bind_eq_some_iff.mp hread
      obtain ⟨rfl, rfl⟩ := Prod.mk.inj (Option.some.inj hread)
      obtain ⟨rfl, rfl⟩ := readContents_only hinfo (length_inRow entries)
        (fun i hi => h i hi _ _) hfound
      obtain rfl := Option.some.inj ((pairs_inRow entries).symm.trans hes)
      exact ⟨rfl, rfl⟩

/-- Nothing inside an item takes more bytes than the item, so no length in it needs more than 64
bits. -/
theorem Item.Proper.readsOnly (h : Item.Proper item) (hlen : item.encode.length < 2 ^ 64)
    (steps levels : Nat) : item.ReadsOnly (readItem steps levels) := by
  induction h generalizing steps levels with
  | flat h => exact h.readsOnly
  | @text b =>
    simp only [Item.ofText, encode, List.flatten_singleton, List.length_append] at hlen
    exact (flat_text (by omega)).readsOnly
  | @array items _ ih =>
    have hcount := length_le_encodeItems items
    simp only [encode, List.length_append] at hlen
    refine readsOnly_array (by omega) fun i hi => ih i hi ?_
    have := length_encode_le hi
    omega
  | @map entries _ ih =>
    have hcount := length_le_encodeItems (inRow entries)
    rw [length_inRow] at hcount
    simp only [encode, encodeEntries_eq, List.length_append] at hlen
    refine readsOnly_map (by omega) fun i hi => ih i hi ?_
    have := length_encode_le hi
    omega

theorem Item.Proper.eq_of_decode (h : Item.Proper item) (hlen : item.encode.length < 2 ^ 64)
    (hx : Item.decode item.encode = some x) : x = item := by
  rw [Item.decode] at hx
  split at hx
  · rename_i found hread
    obtain rfl := Option.some.inj hx
    have honly := h.readsOnly hlen (item.encode.length + 1) maxLevels []
    rw [List.append_nil] at honly
    exact (honly _ _ hread).1
  · cases hx

theorem Item.Fits.proper (h : Item.Fits levels item) : item.Proper := by
  induction h with
  | unsigned hn => exact .flat (flat_unsigned hn)
  | negative hn => exact .flat (flat_negative hn)
  | bytes hb => exact .flat (flat_bytes hb)
  | text => exact .text
  | array _ _ ih => exact .array ih
  | map _ _ _ ihk ihv =>
    refine .map fun i hi => ?_
    obtain ⟨e, he, rfl | rfl⟩ := mem_inRow.mp hi
    · exact ihk e he
    · exact ihv e he
  | simple hc => exact .flat (flat_simple hc)
  | half hb => exact .flat (flat_half hb)
  | single hb => exact .flat (flat_single hb)
  | double => exact .flat (flat_double _)

end Cbor

-- ---------------------------------------------------------------------------
-- Items of images
-- ---------------------------------------------------------------------------

namespace Image

open Cbor (Item inRow mem_inRow)
open Cbor.Item (Kind field entries?)

theorem proper_listItem {item : α → Item} (h : ∀ a, (item a).Proper) (xs : Option (List α)) :
    (listItem item xs).Proper := by
  cases xs with
  | none => exact .flat (Cbor.flat_simple (by decide))
  | some l =>
    refine .array fun i hi => ?_
    obtain ⟨a, -, rfl⟩ := List.mem_map.mp hi
    exact h a

theorem proper_intItem (n : Int64) : (intItem n).Proper :=
  (show (intItem n).Fits 0 from fits_intItem n).proper

theorem proper_byteItem (n : UInt8) : (byteItem n).Proper :=
  (show (byteItem n).Fits 0 from fits_byteItem n).proper

theorem proper_bool (b : Bool) : (Item.bool b).Proper :=
  (show (Item.bool b).Fits 0 from fits_bool b).proper

theorem proper_floatItem (x : Double) : (floatItem x).Proper :=
  (show (floatItem x).Fits 0 from Double.fits_floatItem x).proper

def ProperEntries (es : List (Item × Item)) : Prop := ∀ i ∈ inRow es, i.Proper

theorem ProperEntries.always (key : Nat) (hk : key < 2 ^ 64) (hv : v.Proper) :
    ProperEntries (always key v) := by
  intro i hi
  obtain ⟨e, he, hi⟩ := mem_inRow.mp hi
  obtain rfl := List.mem_singleton.mp he
  rcases hi with rfl | rfl
  · exact .flat (Cbor.flat_unsigned hk)
  · exact hv

theorem ProperEntries.omitting {b : Bool} (key : Nat) (hk : key < 2 ^ 64) (hv : v.Proper) :
    ProperEntries (omitting b key v) := by
  cases b with
  | true => intro i hi; cases hi
  | false => exact .always key hk hv

theorem ProperEntries.append (h : ProperEntries es) (h' : ProperEntries fs) :
    ProperEntries (es ++ fs) := by
  intro i hi
  rw [inRow, List.flatMap_append] at hi
  exact (List.mem_append.mp hi).elim (h i) (h' i)

theorem proper_class (c : Class) : c.toItem.Proper :=
  .map ((ProperEntries.always 1 (by decide) .text).append
    (.omitting 2 (by decide) (proper_intItem _)))

theorem proper_member (m : Member) : m.toItem.Proper :=
  .map (((((ProperEntries.always 1 (by decide) (proper_byteItem _)).append
    (.always 2 (by decide) (proper_intItem _))).append
    (.omitting 3 (by decide) .text)).append
    (.omitting 4 (by decide) .text)).append
    (.omitting 5 (by decide) (proper_listItem (fun _ => .text) _)))

theorem proper_instr (i : Instr) : i.toItem.Proper :=
  .map (((((((((((ProperEntries.always 1 (by decide) (proper_byteItem _)).append
    (.omitting 2 (by decide) .text)).append
    (.omitting 3 (by decide) (proper_intItem _))).append
    (.omitting 4 (by decide) (proper_byteItem _))).append
    (.omitting 5 (by decide) (proper_intItem _))).append
    (.omitting 6 (by decide) (proper_listItem proper_intItem _))).append
    (.omitting 7 (by decide) (proper_bool _))).append
    (.omitting 8 (by decide) (proper_intItem _))).append
    (.omitting 9 (by decide) (proper_floatItem _))).append
    (.omitting 10 (by decide) (proper_bool _))).append
    (.omitting 11 (by decide) .text))

theorem proper_block (b : Block) : b.toItem.Proper :=
  .map (((ProperEntries.always 1 (by decide) (proper_listItem proper_instr _)).append
    (.always 2 (by decide) (proper_listItem proper_intItem _))).append
    (.omitting 3 (by decide) (proper_bool _)))

theorem proper_body (b : Body) : b.toItem.Proper :=
  .map ((ProperEntries.always 1 (by decide) (proper_intItem _)).append
    (.always 2 (by decide) (proper_intItem _)))

theorem proper_toItem (img : Image) : img.toItem.Proper :=
  .map (((((((((ProperEntries.always 1 (by decide) (proper_byteItem _)).append
    (.omitting 2 (by decide) .text)).append
    (.always 3 (by decide) (proper_listItem proper_class _))).append
    (.always 4 (by decide) (proper_listItem proper_member _))).append
    (.always 5 (by decide) (proper_listItem proper_block _))).append
    (.always 6 (by decide) (proper_listItem proper_body _))).append
    (.always 7 (by decide) (proper_intItem _))).append
    (.omitting 8 (by decide) (proper_bool _))).append
    (.omitting 9 (by decide) (proper_listItem proper_intItem _)))

-- ---------------------------------------------------------------------------
-- Text
-- ---------------------------------------------------------------------------

theorem ofItem_of_listItem {k : Kind β} {item : α → Item} {xs : Option (List α)}
    (h : (Kind.list k).ofItem (listItem item xs) = some ys) :
    ∀ l ∈ xs, ∀ a ∈ l, ∃ b, k.ofItem (item a) = some b := by
  rintro l rfl
  obtain ⟨bs, hbs, -⟩ := Option.map_eq_some_iff.mp h
  clear h
  induction l generalizing bs with
  | nil => simp
  | cons a l ih =>
    rw [List.map_cons, List.mapM_cons] at hbs
    obtain ⟨b, hb, hbs⟩ := Option.bind_eq_some_iff.mp hbs
    obtain ⟨rest, hrest, -⟩ := Option.bind_eq_some_iff.mp hbs
    exact List.forall_mem_cons.mpr ⟨⟨b, hb⟩, ih rest hrest⟩

theorem ofItem_of_field {k : Kind α} {key : Nat} {v : Item} {es : List (Item × Item)}
    (h : under key es = under key (always key v)) (ha : field es key k = some a) :
    k.ofItem v = some a := by
  rwa [field_eq, h, under_always, if_pos rfl] at ha

theorem entries?_map_eq {es fs : List (Item × Item)} (h : es.all (·.1.isKey) = true)
    (hfs : entries? (.map es) = some fs) : fs = es :=
  Option.some.inj (hfs.symm.trans (entries?_map h))

theorem valid_of_instr {i x : Instr} (h : Instr.schema.ofItem i.toItem = some x) :
    Utf8.isValid i.str = true := by
  replace h : Instr.schema.read i.toItem = some x := h
  simp only [Instr.schema, Instr.toItem, Option.bind_eq_bind, Option.bind_eq_some_iff] at h
  obtain ⟨es, hes, _, -, _, -, _, -, _, -, _, -, _, -, _, -, _, -, _, -, _, -, str, hstr, -⟩ := h
  obtain rfl := entries?_map_eq (by simp) hes
  cases hempty : i.str.isEmpty with
  | true =>
    rw [List.isEmpty_iff.mp hempty]
    exact Utf8.isValid_nil
  | false =>
    have htext := ofItem_of_field (v := .ofText i.str) (by simp [hempty]) hstr
    by_contra hvalid
    simp [Item.ofText, Kind.ofItem, Item.untagged, Item.isNull, Kind.bytes, Item.text?,
      hvalid] at htext

theorem valid_of_block {b x : Block} (h : Block.schema.ofItem b.toItem = some x) :
    ∀ l ∈ b.code, ∀ i ∈ l, Utf8.isValid i.str = true := by
  replace h : Block.schema.read b.toItem = some x := h
  simp only [Block.schema, Block.toItem, Option.bind_eq_bind, Option.bind_eq_some_iff] at h
  obtain ⟨es, hes, code, hcode, -⟩ := h
  obtain rfl := entries?_map_eq (by simp) hes
  have hlist := ofItem_of_field (v := listItem Instr.toItem b.code) (by simp) hcode
  intro l hl i hi
  obtain ⟨x, hx⟩ := ofItem_of_listItem hlist l hl i hi
  exact valid_of_instr hx

theorem valid_of_toItem {img x : Image} (h : schema.ofItem img.toItem = some x) :
    ∀ bs ∈ img.blocks, ∀ b ∈ bs, ∀ l ∈ b.code, ∀ i ∈ l, Utf8.isValid i.str = true := by
  replace h : schema.read img.toItem = some x := h
  simp only [schema, toItem, Option.bind_eq_bind, Option.bind_eq_some_iff] at h
  obtain ⟨es, hes, _, -, _, -, _, -, _, -, blocks, hblocks, -⟩ := h
  obtain rfl := entries?_map_eq (by simp) hes
  have hlist := ofItem_of_field (v := listItem Block.toItem img.blocks) (by simp) hblocks
  intro bs hbs b hb
  obtain ⟨x, hx⟩ := ofItem_of_listItem hlist bs hbs b hb
  exact valid_of_block hx

/-- The bytes of an image are read as nothing but that image. -/
theorem normal_of_unmarshal {img x : Image} (hlen : (marshal img).length < 2 ^ 64)
    (h : unmarshal (marshal img) = some x) : x = img.normal := by
  obtain ⟨item, hitem, hx⟩ := Option.bind_eq_some_iff.mp h
  obtain rfl := (proper_toItem img).eq_of_decode hlen hitem
  exact Option.some.inj (hx.symm.trans (ofItem_toItem img (valid_of_toItem hx)))

-- ---------------------------------------------------------------------------
-- Normal forms
-- ---------------------------------------------------------------------------

theorem isEmptyList_nonempty (xs : Option (List α)) :
    isEmptyList (Encoder.nonempty (xs.getD [])) = isEmptyList xs := by
  unfold isEmptyList Encoder.nonempty
  split <;> simp_all

theorem omitting_nonempty (key : Nat) (item : α → Item) (xs : Option (List α)) :
    omitting (isEmptyList (Encoder.nonempty (xs.getD []))) key
        (listItem item (Encoder.nonempty (xs.getD []))) =
      omitting (isEmptyList xs) key (listItem item xs) := by
  rw [isEmptyList_nonempty]
  cases xs with
  | none => rfl
  | some l => cases l <;> rfl

theorem omitting_canonical (key : Nat) (x : Double) :
    omitting x.canonical.isZero key (floatItem x.canonical) =
      omitting x.isZero key (floatItem x) := by
  unfold Double.canonical
  split
  case isTrue hnan =>
    have hzero : x.isZero = false := by simp_all [Double.isZero, Double.isNaN]
    have hitem : floatItem x = floatItem .nan := by
      rw [floatItem, if_pos hnan]
      rfl
    rw [hzero, hitem]
    rfl
  case isFalse =>
    split
    case isTrue hzero =>
      rw [hzero]
      rfl
    case isFalse => rfl

theorem toItem_member_normal (m : Member) : m.normal.toItem = m.toItem := by
  simp only [Member.toItem, Member.normal, omitting_nonempty]

theorem toItem_instr_normal (i : Instr) : i.normal.toItem = i.toItem := by
  simp only [Instr.toItem, Instr.normal, omitting_nonempty, omitting_canonical]

theorem listItem_map {item : α → Item} {f : α → α} (h : ∀ a, item (f a) = item a)
    (xs : Option (List α)) : listItem item (xs.map (·.map f)) = listItem item xs := by
  cases xs with
  | none => rfl
  | some l => simp [listItem, h]

theorem toItem_block_normal (b : Block) : b.normal.toItem = b.toItem := by
  simp only [Block.toItem, Block.normal, listItem_map toItem_instr_normal]

theorem marshal_normal (img : Image) : marshal img.normal = marshal img := by
  simp only [marshal, toItem, normal, listItem_map toItem_member_normal,
    listItem_map toItem_block_normal, omitting_nonempty]

end Image

end Linkage
