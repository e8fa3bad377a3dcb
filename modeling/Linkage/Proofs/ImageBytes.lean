import Linkage.Image.Encode
import Linkage.Proofs.Texts
import Linkage.Proofs.Widening

/-!
# Images read back from their bytes

An image within the limits of the format is read back from its bytes in normal form: parameters,
targets and members in reach that are empty are not told apart from none, and numbers are told apart
only as numbers.
-/

namespace Linkage.Image

open Cbor (Item maxElements maxLevels)
open Cbor.Item (Kind field entries?)

-- ---------------------------------------------------------------------------
-- Values
-- ---------------------------------------------------------------------------

theorem ofItem_intItem (n : Int64) : Kind.int64.ofItem (intItem n) = some n := by
  have hlow := n.le_toInt
  have hhigh := n.toInt_lt
  unfold intItem Item.ofInt
  split
  case isTrue h =>
    have hint : ((n.toInt.toNat : Nat) : Int) = n.toInt := Int.toNat_of_nonneg h
    simp only [Kind.ofItem, Item.untagged, Item.isNull, Kind.int64, Item.isBool, Item.int?, hint,
      Bool.false_eq_true, ↓reduceIte, Int.pow_eq, if_pos (And.intro hlow hhigh), Int64.ofInt_toInt]
  case isFalse h =>
    have hint : -1 - (((-1 - n.toInt).toNat : Nat) : Int) = n.toInt := by omega
    simp only [Kind.ofItem, Item.untagged, Item.isNull, Kind.int64, Item.isBool, Item.int?, hint,
      Bool.false_eq_true, ↓reduceIte, Int.pow_eq, if_pos (And.intro hlow hhigh), Int64.ofInt_toInt]

theorem ofItem_byteItem (n : UInt8) : Kind.byte.ofItem (byteItem n) = some n := by
  have h : (0 : Int) ≤ (n.toNat : Int) ∧ (n.toNat : Int) < 256 := by have := n.toNat_lt; omega
  simp only [byteItem, Kind.ofItem, Item.untagged, Item.isNull, Kind.byte, Item.isBool, Item.int?,
    Bool.false_eq_true, ↓reduceIte, if_pos h, Int.toNat_natCast, UInt8.ofNat_toNat]

theorem ofItem_bool (b : Bool) : Kind.bool.ofItem (.bool b) = some b := by
  cases b <;> rfl

theorem ofItem_ofText (h : Utf8.isValid b) : Kind.bytes.ofItem (.ofText b) = some b := by
  simp [Item.ofText, Kind.ofItem, Item.untagged, Item.isNull, Kind.bytes, Item.text?, h]

theorem ofItem_stringItem (s : String) : Kind.string.ofItem (stringItem s) = some s := by
  simp [stringItem, Item.ofText, Kind.ofItem, Item.untagged, Item.isNull, Kind.string, Item.text?]

theorem ofItem_listItem {k : Kind β} {item : α → Item} {f : α → β} (xs : Option (List α))
    (h : ∀ l ∈ xs, ∀ a ∈ l, k.ofItem (item a) = some (f a)) :
    (Kind.list k).ofItem (listItem item xs) = some (xs.map (·.map f)) := by
  cases xs with
  | none => rfl
  | some l =>
    have hl : (l.map item).mapM k.ofItem = some (l.map f) := by
      have hall := h l rfl
      clear h
      induction l with
      | nil => rfl
      | cons a l ih =>
        have ha := hall a (by simp)
        have ih := ih fun b hb => hall b (by simp [hb])
        simp [ha, ih]
    simp [listItem, Kind.ofItem, Item.untagged, Item.isNull, Kind.list, hl]

-- ---------------------------------------------------------------------------
-- Records
-- ---------------------------------------------------------------------------

def under (key : Nat) (entries : List (Item × Item)) : Option (Item × Item) :=
  entries.find? (·.1.isKeyOf key)

section
variable {key n : Nat} {v : Item}

@[simp] theorem under_append (es fs : List (Item × Item)) :
    under key (es ++ fs) = (under key es).or (under key fs) := List.find?_append

@[simp] theorem under_always :
    under key (always n v) = if n = key then some (.unsigned n, v) else none := by
  by_cases h : n = key <;> simp [under, always, Item.isKeyOf, h]

@[simp] theorem under_omitting (b : Bool) :
    under key (omitting b n v) = if n = key ∧ b = false then some (.unsigned n, v) else none := by
  cases b
  · simp [omitting]
  · simp [omitting, under]

@[simp] theorem all_isKey_always : (always n v).all (·.1.isKey) = true := by
  simp [always, Item.isKey]

@[simp] theorem all_isKey_omitting (b : Bool) : (omitting b n v).all (·.1.isKey) = true := by
  cases b <;> simp [omitting]

end

section
variable {k : Kind α} {key : Nat} {v : Item} {es : List (Item × Item)}

theorem field_eq : field es key k =
    match under key es with
    | some (_, v) => k.ofItem v
    | none => some k.zero := rfl

theorem field_always (h : under key es = under key (always key v)) (hv : k.ofItem v = some a) :
    field es key k = some a := by
  rw [field_eq, h, under_always, if_pos rfl]
  exact hv

/-- A field that is left out when it is empty: its value is the zero then. -/
theorem field_omitting {b : Bool} (h : under key es = under key (omitting b key v))
    (hz : b = true → a = k.zero) (hv : b = false → k.ofItem v = some a) :
    field es key k = some a := by
  cases b with
  | true => simp [field_eq, h, hz rfl]
  | false => exact field_always h (hv rfl)

theorem field_int (n : Int64) (h : under key es = under key (omitting (n == 0) key (intItem n))) :
    field es key .int64 = some n :=
  field_omitting h beq_iff_eq.mp fun _ => ofItem_intItem n

theorem field_byte (n : UInt8) (h : under key es = under key (omitting (n == 0) key (byteItem n))) :
    field es key .byte = some n :=
  field_omitting h beq_iff_eq.mp fun _ => ofItem_byteItem n

theorem field_flag (b : Bool) (h : under key es = under key (omitting (!b) key (.bool b))) :
    field es key .bool = some b :=
  field_omitting h (by simp [Kind.bool]) fun _ => ofItem_bool b

theorem field_string (s : String)
    (h : under key es = under key (omitting s.isEmpty key (stringItem s))) :
    field es key .string = some s :=
  field_omitting h (by simp [Kind.string]) fun _ => ofItem_stringItem s

theorem field_list {item : α → Item} (xs : Option (List α))
    (hv : ∀ a, k.ofItem (item a) = some a)
    (h : under key es = under key (omitting (isEmptyList xs) key (listItem item xs))) :
    field es key (.list k) = some (Encoder.nonempty (xs.getD [])) := by
  refine field_omitting h (fun hz => ?_) fun hne => ?_
  · simp [Encoder.nonempty, show (xs.getD []).isEmpty = true from hz, Kind.list]
  · rw [ofItem_listItem (f := id) xs fun _ _ a _ => hv a]
    cases xs with
    | none => simp [isEmptyList] at hne
    | some l => simp_all [Encoder.nonempty, isEmptyList]

end

-- ---------------------------------------------------------------------------
-- Parts of an image
-- ---------------------------------------------------------------------------

/-- Lists that may be left out are none when they are empty. -/
def Member.normal (m : Member) : Member := { m with params := Encoder.nonempty (m.params.getD []) }

def Instr.normal (i : Instr) : Instr :=
  { i with targets := Encoder.nonempty (i.targets.getD []), float := i.float.canonical }

def Block.normal (b : Block) : Block := { b with code := b.code.map (·.map Instr.normal) }

def normal (img : Image) : Image :=
  { img with
    members := img.members.map (·.map Member.normal)
    blocks := img.blocks.map (·.map Block.normal)
    reachable := Encoder.nonempty (img.reachable.getD []) }

theorem ofItem_map {k : Kind α} (h : k.read (.map es) = some a) :
    k.ofItem (.map es) = some a := h

theorem entries?_map (h : es.all (·.1.isKey) = true) : entries? (.map es) = some es := by
  simp [entries?, h]

theorem ofItem_class (c : Class) : Class.schema.ofItem c.toItem = some c := by
  refine ofItem_map ?_
  simp only [Class.schema]
  rw [entries?_map (by simp), Option.bind_eq_bind, Option.bind_some,
    field_always (by simp) (ofItem_stringItem c.name), field_int c.super (by simp)]
  rfl

theorem ofItem_member (m : Member) : Member.schema.ofItem m.toItem = some m.normal := by
  refine ofItem_map ?_
  simp only [Member.schema]
  rw [entries?_map (by simp), Option.bind_eq_bind, Option.bind_some,
    field_always (by simp) (ofItem_byteItem m.kind),
    field_always (by simp) (ofItem_intItem m.owner),
    field_string m.name (by simp), field_string m.type (by simp),
    field_list m.params ofItem_stringItem (by simp)]
  rfl

theorem canonical_of_isZero {x : Double} (h : x.isZero = true) : x.canonical = .zero := by
  have hnan : x.isNaN = false := by simp_all [Double.isZero, Double.isNaN]
  simp [Double.canonical, hnan, h]

theorem field_double (x : Double)
    (h : under key es = under key (omitting x.isZero key (floatItem x))) :
    field es key .double = some x.canonical :=
  field_omitting h canonical_of_isZero fun hz => x.ofItem_floatItem hz

theorem field_bytes (hb : Utf8.isValid b = true)
    (h : under key es = under key (omitting b.isEmpty key (.ofText b))) :
    field es key .bytes = some b :=
  field_omitting h (by simp [Kind.bytes]) fun _ => ofItem_ofText hb

theorem ofItem_instr (i : Instr) (h : Utf8.isValid i.str = true) :
    Instr.schema.ofItem i.toItem = some i.normal := by
  refine ofItem_map ?_
  simp only [Instr.schema]
  rw [entries?_map (by simp), Option.bind_eq_bind, Option.bind_some,
    field_always (by simp) (ofItem_byteItem i.op), field_string i.type (by simp),
    field_int i.slot (by simp), field_byte i.sub (by simp), field_int i.member (by simp),
    field_list i.targets ofItem_intItem (by simp), field_flag i.resolved (by simp),
    field_int i.int (by simp), field_double i.float (by simp), field_flag i.bool (by simp),
    field_bytes h (by simp)]
  rfl

theorem ofItem_block (b : Block) (h : ∀ l ∈ b.code, ∀ i ∈ l, Utf8.isValid i.str = true) :
    Block.schema.ofItem b.toItem = some b.normal := by
  have hcode := ofItem_listItem b.code fun l hl i hi => ofItem_instr i (h l hl i hi)
  have hsuccs := ofItem_listItem (f := id) b.succs fun _ _ n _ => ofItem_intItem n
  refine ofItem_map ?_
  simp only [Block.schema]
  rw [entries?_map (by simp), Option.bind_eq_bind, Option.bind_some, field_always (by simp) hcode,
    field_always (by simp) hsuccs, field_flag b.fixed (by simp)]
  simp [Block.normal]

theorem ofItem_body (b : Body) : Body.schema.ofItem b.toItem = some b := by
  refine ofItem_map ?_
  simp only [Body.schema]
  rw [entries?_map (by simp), Option.bind_eq_bind, Option.bind_some,
    field_always (by simp) (ofItem_intItem b.member),
    field_always (by simp) (ofItem_intItem b.root)]
  rfl

theorem ofItem_toItem (img : Image)
    (h : ∀ bs ∈ img.blocks, ∀ b ∈ bs, ∀ l ∈ b.code, ∀ i ∈ l, Utf8.isValid i.str = true) :
    schema.ofItem img.toItem = some img.normal := by
  have hclasses := ofItem_listItem (f := id) img.classes fun _ _ c _ => ofItem_class c
  have hmembers := ofItem_listItem img.members fun _ _ m _ => ofItem_member m
  have hblocks := ofItem_listItem img.blocks fun bs hbs b hb => ofItem_block b (h bs hbs b hb)
  have hbodies := ofItem_listItem (f := id) img.bodies fun _ _ b _ => ofItem_body b
  refine ofItem_map ?_
  simp only [schema]
  rw [entries?_map (by simp), Option.bind_eq_bind, Option.bind_some,
    field_always (by simp) (ofItem_byteItem img.version), field_string img.runId (by simp),
    field_always (by simp) hclasses, field_always (by simp) hmembers,
    field_always (by simp) hblocks, field_always (by simp) hbodies,
    field_always (by simp) (ofItem_intItem img.entry), field_flag img.linked (by simp),
    field_list img.reachable ofItem_intItem (by simp)]
  simp [normal]

-- ---------------------------------------------------------------------------
-- The limits of the format
-- ---------------------------------------------------------------------------

def Short (s : String) : Prop := s.utf8ByteSize < 2 ^ 64

instance (s : String) : Decidable (Short s) :=
  inferInstanceAs (Decidable (s.utf8ByteSize < 2 ^ 64))

def Within (P : α → Prop) (xs : Option (List α)) : Prop :=
  ∀ l ∈ xs, l.length ≤ maxElements ∧ ∀ a ∈ l, P a

structure Member.Fits (m : Member) : Prop where
  name : Short m.name
  type : Short m.type
  params : Within Short m.params

structure Instr.Fits (i : Instr) : Prop where
  type : Short i.type
  targets : Within (fun _ => True) i.targets
  str : i.str.length < 2 ^ 64
  valid : Utf8.isValid i.str = true

structure Block.Fits (b : Block) : Prop where
  code : Within Instr.Fits b.code
  succs : Within (fun _ => True) b.succs

/-- Lists within the limit, and text that is UTF-8. -/
structure Fits (img : Image) : Prop where
  runId : Short img.runId
  classes : Within (fun c => Short c.name) img.classes
  members : Within Member.Fits img.members
  blocks : Within Block.Fits img.blocks
  bodies : Within (fun _ => True) img.bodies
  reachable : Within (fun _ => True) img.reachable

section
variable {levels : Nat}

theorem fits_intItem (n : Int64) : (intItem n).Fits levels := by
  have hlow := n.le_toInt
  have hhigh := n.toInt_lt
  unfold intItem Item.ofInt
  split
  · exact .unsigned (by omega)
  · exact .negative (by omega)

theorem fits_byteItem (n : UInt8) : (byteItem n).Fits levels :=
  .unsigned (by have := n.toNat_lt; omega)

theorem fits_bool (b : Bool) : (Item.bool b).Fits levels := by
  cases b <;> exact .simple (by decide)

theorem fits_stringItem (h : Short s) : (stringItem s).Fits levels :=
  .text (Utf8.length_bytesOf s ▸ h)

theorem fits_listItem {P : α → Prop} {item : α → Item} (h : Within P xs)
    (hP : ∀ a, P a → (item a).Fits levels) : (listItem item xs).Fits (levels + 1) := by
  cases xs with
  | none => exact .simple (by decide)
  | some l =>
    obtain ⟨hlen, hl⟩ := h l rfl
    refine .array (by simpa using hlen) fun i hi => ?_
    obtain ⟨a, ha, rfl⟩ := List.mem_map.mp hi
    exact hP a (hl a ha)

def Entries (levels n : Nat) (es : List (Item × Item)) : Prop :=
  es.length ≤ n ∧ ∀ e ∈ es, e.1.Fits levels ∧ e.2.Fits levels

theorem Entries.always (key : Nat) (hk : key < 2 ^ 64) (hv : v.Fits levels) :
    Entries levels 1 (always key v) := by
  refine ⟨by simp [Image.always], ?_⟩
  simp only [Image.always, List.forall_mem_singleton]
  exact ⟨.unsigned hk, hv⟩

theorem Entries.omitting {b : Bool} (key : Nat) (hk : key < 2 ^ 64) (hv : v.Fits levels) :
    Entries levels 1 (omitting b key v) := by
  cases b with
  | true => exact ⟨by simp [Image.omitting], by simp [Image.omitting]⟩
  | false => exact .always key hk hv

theorem Entries.append (h : Entries levels n es) (h' : Entries levels m fs) :
    Entries levels (n + m) (es ++ fs) := by
  refine ⟨?_, List.forall_mem_append.mpr ⟨h.2, h'.2⟩⟩
  rw [List.length_append]
  exact Nat.add_le_add h.1 h'.1

theorem Entries.fits (h : Entries levels n es) (hn : n ≤ maxElements) :
    (Item.map es).Fits (levels + 1) :=
  .map (Nat.le_trans h.1 hn) (fun e he => (h.2 e he).1) fun e he => (h.2 e he).2

theorem fits_class {c : Class} (h : Short c.name) : c.toItem.Fits (levels + 1) :=
  ((Entries.always 1 (by decide) (fits_stringItem h)).append
    (.omitting 2 (by decide) (fits_intItem _))).fits (by decide)

theorem Member.Fits.toItem {m : Member} (h : m.Fits) : m.toItem.Fits (levels + 2) :=
  (((((Entries.always 1 (by decide) (fits_byteItem _)).append
    (.always 2 (by decide) (fits_intItem _))).append
    (.omitting 3 (by decide) (fits_stringItem h.name))).append
    (.omitting 4 (by decide) (fits_stringItem h.type))).append
    (.omitting 5 (by decide) (fits_listItem h.params fun _ => fits_stringItem))).fits (by decide)

theorem Instr.Fits.toItem {i : Instr} (h : i.Fits) : i.toItem.Fits (levels + 2) :=
  (((((((((((Entries.always 1 (by decide) (fits_byteItem _)).append
    (.omitting 2 (by decide) (fits_stringItem h.type))).append
    (.omitting 3 (by decide) (fits_intItem _))).append
    (.omitting 4 (by decide) (fits_byteItem _))).append
    (.omitting 5 (by decide) (fits_intItem _))).append
    (.omitting 6 (by decide) (fits_listItem h.targets fun _ _ => fits_intItem _))).append
    (.omitting 7 (by decide) (fits_bool _))).append
    (.omitting 8 (by decide) (fits_intItem _))).append
    (.omitting 9 (by decide) (Double.fits_floatItem _))).append
    (.omitting 10 (by decide) (fits_bool _))).append
    (.omitting 11 (by decide) (.text h.str))).fits (by decide)

theorem Block.Fits.toItem {b : Block} (h : b.Fits) : b.toItem.Fits (levels + 4) :=
  (((Entries.always 1 (by decide) (fits_listItem h.code fun _ hi => hi.toItem)).append
    (.always 2 (by decide) (fits_listItem h.succs fun _ _ => fits_intItem _))).append
    (.omitting 3 (by decide) (fits_bool _))).fits (by decide)

theorem fits_body (b : Body) : b.toItem.Fits (levels + 1) :=
  ((Entries.always 1 (by decide) (fits_intItem _)).append
    (.always 2 (by decide) (fits_intItem _))).fits (by decide)

theorem Fits.toItem {img : Image} (h : img.Fits) : img.toItem.Fits (levels + 6) :=
  (((((((((Entries.always 1 (by decide) (fits_byteItem _)).append
    (.omitting 2 (by decide) (fits_stringItem h.runId))).append
    (.always 3 (by decide) (fits_listItem h.classes fun _ hc => fits_class hc))).append
    (.always 4 (by decide) (fits_listItem h.members fun _ hm => hm.toItem))).append
    (.always 5 (by decide) (fits_listItem h.blocks fun _ hb => hb.toItem))).append
    (.always 6 (by decide) (fits_listItem h.bodies fun b _ => fits_body b))).append
    (.always 7 (by decide) (fits_intItem _))).append
    (.omitting 8 (by decide) (fits_bool _))).append
    (.omitting 9 (by decide) (fits_listItem h.reachable fun _ _ => fits_intItem _))).fits
    (by decide)

end

/-- Reading undoes writing, up to normal form. -/
theorem unmarshal_marshal {img : Image} (h : img.Fits) :
    unmarshal (marshal img) = some img.normal := by
  have hitem := Item.decode_encode (show img.toItem.Fits maxLevels from h.toItem)
  have hvalid : ∀ bs ∈ img.blocks, ∀ b ∈ bs, ∀ l ∈ b.code, ∀ i ∈ l, Utf8.isValid i.str = true := by
    intro bs hbs b hb l hl i hi
    exact ((((h.blocks bs hbs).2 b hb).code l hl).2 i hi).valid
  simp [unmarshal, marshal, hitem, ofItem_toItem img hvalid]

end Linkage.Image
