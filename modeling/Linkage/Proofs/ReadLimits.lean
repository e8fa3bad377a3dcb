import Linkage.Proofs.ImageBytes

/-!
# Limits of what is read

Bytes are read within limits: no list of an image is longer than the reader allows, and no text is
longer than the bytes it comes from.
-/

namespace Linkage

-- ---------------------------------------------------------------------------
-- Text
-- ---------------------------------------------------------------------------

namespace Utf8

theorem bytesOf_of_text? (h : text? bytes = some s) : bytesOf s = bytes := by
  rw [text?, String.fromUTF8?] at h
  split at h
  · obtain rfl := Option.some.inj h
    simp [bytesOf, toList_eq, String.toUTF8, String.fromUTF8]
  · cases h

theorem isValid_iff : isValid bytes = true ↔ ∃ s, bytesOf s = bytes := by
  constructor
  · intro h
    obtain ⟨s, hs⟩ := Option.isSome_iff_exists.mp h
    exact ⟨s, bytesOf_of_text? hs⟩
  · rintro ⟨s, rfl⟩
    exact isValid_bytesOf s

theorem isValid_append (h : isValid xs = true) (h' : isValid ys = true) :
    isValid (xs ++ ys) = true := by
  obtain ⟨s, rfl⟩ := isValid_iff.mp h
  obtain ⟨t, rfl⟩ := isValid_iff.mp h'
  refine isValid_iff.mpr ⟨s ++ t, ?_⟩
  simp [bytesOf, toList_eq, String.toUTF8]

theorem isValid_flatten {chunks : List (List UInt8)} (h : chunks.all isValid = true) :
    isValid chunks.flatten = true := by
  induction chunks with
  | nil => exact isValid_nil
  | cons chunk chunks ih =>
    simp only [List.all_cons, Bool.and_eq_true] at h
    exact isValid_append h.1 (ih h.2)

theorem length_le_utf8ByteSize (s : String) : s.toList.length ≤ s.utf8ByteSize := by
  rw [← length_bytesOf, ← String.ofList_toList (s := s), bytesOf_ofList, String.toList_ofList]
  generalize s.toList = cs
  induction cs with
  | nil => exact Nat.le_refl _
  | cons c cs ih =>
    have hc := Char.utf8Size_pos c
    rw [List.flatMap_cons, List.length_append, String.length_utf8EncodeChar, List.length_cons]
    omega

end Utf8

-- ---------------------------------------------------------------------------
-- Items
-- ---------------------------------------------------------------------------

namespace Cbor

/-- Texts of at most `n` bytes and arrays of a size that the reader allows, all the way down. -/
inductive Item.Bounded (n : Nat) : Item → Prop
  | unsigned : Bounded n (.unsigned value)
  | negative : Bounded n (.negative value)
  | bytes : Bounded n (.bytes b)
  | text {chunks} : chunks.flatten.length ≤ n → Bounded n (.text chunks)
  | array {items} : items.length ≤ maxElements → (∀ i ∈ items, Bounded n i) →
      Bounded n (.array items)
  | map {entries} : (∀ e ∈ entries, Bounded n e.2) → Bounded n (.map entries)
  | tag : Bounded n content → Bounded n (.tag number content)
  | simple : Bounded n (.simple code)
  | half : Bounded n (.half bits)
  | single : Bounded n (.single bits)
  | double : Bounded n (.double bits)

def Reads (n : Nat) (read : List UInt8 → Option (Item × List UInt8)) : Prop :=
  ∀ ⦃bytes item rest⦄, bytes.length ≤ n → read bytes = some (item, rest) →
    item.Bounded n ∧ rest.length ≤ bytes.length

section
variable {n : Nat} {bytes rest front : List UInt8} {h : Head}
  {read : List UInt8 → Option (Item × List UInt8)} {items done : List Item}

theorem length_of_split (h : split count bytes = some (front, rest)) :
    front.length + rest.length = bytes.length := by
  rw [split] at h
  split at h
  · obtain ⟨rfl, rfl⟩ := Prod.mk.inj (Option.some.inj h)
    rw [← List.length_append, List.take_append_drop]
  · cases h

theorem length_of_readHead (hread : readHead bytes = some (h, rest)) :
    rest.length < bytes.length := by
  cases bytes with
  | nil => cases hread
  | cons b tail =>
    simp only [readHead] at hread
    split at hread
    · obtain ⟨-, rfl⟩ := Prod.mk.inj (Option.some.inj hread)
      simp
    · split at hread
      · split at hread
        · obtain ⟨-, rfl⟩ := Prod.mk.inj (Option.some.inj hread)
          simp
        · cases hread
      · split at hread
        · cases hread
        · obtain ⟨⟨argument, tail'⟩, hsplit, hread⟩ := Option.bind_eq_some_iff.mp hread
          have hlen := length_of_split hsplit
          dsimp only at hread
          split at hread
          · cases hread
          · obtain ⟨-, rfl⟩ := Prod.mk.inj (Option.some.inj hread)
            simp only [List.length_cons]
            omega

theorem length_of_readChunks {chunks found : List (List UInt8)}
    (hread : readChunks major steps found bytes = some (chunks, rest)) :
    chunks.flatten.length + rest.length ≤ found.flatten.length + bytes.length := by
  fun_induction readChunks major steps found bytes with
  | case1 => cases hread
  | case2 found tail steps =>
    obtain ⟨rfl, rfl⟩ := Prod.mk.inj (Option.some.inj hread)
    simp only [List.length_flatten, List.map_reverse, List.sum_reverse, List.length_cons]
    omega
  | case3 steps found bytes hbreak ih =>
    obtain ⟨⟨h, tail⟩, hhead, hread⟩ := Option.bind_eq_some_iff.mp hread
    have hlen := length_of_readHead hhead
    dsimp only at hread
    split at hread
    · cases hread
    · obtain ⟨⟨chunk, tail'⟩, hsplit, hread⟩ := Option.bind_eq_some_iff.mp hread
      have hsplit := length_of_split hsplit
      have ih := ih chunk tail' hread
      simp only [List.flatten_cons, List.length_append] at ih
      omega

theorem length_of_readString {chunks : List (List UInt8)}
    (hread : readString h bytes = some (chunks, rest)) :
    chunks.flatten.length + rest.length ≤ bytes.length := by
  rw [readString] at hread
  split at hread
  · simpa using length_of_readChunks hread
  · obtain ⟨⟨chunk, tail⟩, hsplit, hread⟩ := Option.map_eq_some_iff.mp hread
    obtain ⟨rfl, rfl⟩ := Prod.mk.inj hread
    simpa using Nat.le_of_eq (length_of_split hsplit)

theorem Reads.times (hread : Reads n read) (hn : bytes.length ≤ n) (hdone : ∀ i ∈ done, i.Bounded n)
    (h : readTimes read count done bytes = some (items, rest)) :
    (∀ i ∈ items, i.Bounded n) ∧ rest.length ≤ bytes.length ∧
      items.length = count + done.length := by
  induction count generalizing done bytes with
  | zero =>
    obtain ⟨rfl, rfl⟩ := Prod.mk.inj (Option.some.inj h)
    exact ⟨fun i hi => hdone i (List.mem_reverse.mp hi), Nat.le_refl _, by simp⟩
  | succ count ih =>
    obtain ⟨⟨item, tail⟩, hitem, h⟩ := Option.bind_eq_some_iff.mp h
    obtain ⟨hbounded, hlen⟩ := hread hn hitem
    obtain ⟨hitems, hrest, hcount⟩ :=
      ih (Nat.le_trans hlen hn) (List.forall_mem_cons.mpr ⟨hbounded, hdone⟩) h
    refine ⟨hitems, Nat.le_trans hrest hlen, ?_⟩
    rw [hcount, List.length_cons]
    omega

theorem Reads.untilBreak (hread : Reads n read) (hn : bytes.length ≤ n)
    (hdone : ∀ i ∈ done, i.Bounded n)
    (h : readUntilBreak read steps done bytes = some (items, rest)) :
    (∀ i ∈ items, i.Bounded n) ∧ rest.length ≤ bytes.length := by
  fun_induction readUntilBreak read steps done bytes with
  | case1 => cases h
  | case2 done tail steps =>
    obtain ⟨rfl, rfl⟩ := Prod.mk.inj (Option.some.inj h)
    exact ⟨fun i hi => hdone i (List.mem_reverse.mp hi), by simp⟩
  | case3 steps done bytes hbreak ih =>
    obtain ⟨⟨item, tail⟩, hitem, h⟩ := Option.bind_eq_some_iff.mp h
    obtain ⟨hbounded, hlen⟩ := hread hn hitem
    obtain ⟨hitems, hrest⟩ :=
      ih item tail (Nat.le_trans hlen hn) (List.forall_mem_cons.mpr ⟨hbounded, hdone⟩) h
    exact ⟨hitems, Nat.le_trans hrest hlen⟩

theorem Reads.contents (hread : Reads n read) (hn : bytes.length ≤ n)
    (hitems : readContents read h width bytes = some (items, rest)) :
    (∀ i ∈ items, i.Bounded n) ∧ rest.length ≤ bytes.length ∧
      items.length / width ≤ maxElements := by
  rw [readContents] at hitems
  split at hitems
  · obtain ⟨⟨found, tail⟩, hfound, hitems⟩ := Option.bind_eq_some_iff.mp hitems
    dsimp only at hitems
    split at hitems
    · rename_i hlimit
      obtain ⟨rfl, rfl⟩ := Prod.mk.inj (Option.some.inj hitems)
      obtain ⟨hall, hlen⟩ := hread.untilBreak hn (by simp) hfound
      exact ⟨hall, hlen, hlimit⟩
    · cases hitems
  · split at hitems
    · rename_i hlimit
      obtain ⟨hall, hlen, hcount⟩ := hread.times hn (by simp) hitems
      refine ⟨hall, hlen, ?_⟩
      rw [hcount, List.length_nil, Nat.add_zero]
      exact Nat.le_trans (Nat.div_le_of_le_mul (Nat.le_refl _)) hlimit
    · cases hitems

theorem mem_of_pairs (h : pairs items = some entries) (he : e ∈ entries) : e.2 ∈ items := by
  fun_induction pairs items generalizing entries with
  | case1 => simp_all
  | case2 => cases h
  | case3 key value items ih =>
    obtain ⟨rest, hrest, rfl⟩ := Option.map_eq_some_iff.mp h
    rcases List.mem_cons.mp he with rfl | he
    · simp
    · simp [ih hrest he]

/-- What follows the head of an item is shorter than the whole, so nothing inside can be longer. -/
theorem reads_readItem (n steps levels : Nat) : Reads n (readItem steps levels) := by
  intro bytes item rest hn hread
  induction steps generalizing levels bytes item rest with
  | zero => cases hread
  | succ steps ih =>
    have hinner : ∀ levels, Reads n (readItem steps levels) := fun levels _ _ _ hn => ih levels hn
    obtain ⟨⟨h, tail⟩, hhead, hread⟩ := Option.bind_eq_some_iff.mp hread
    have hlt := length_of_readHead hhead
    have htail : tail.length ≤ n := by omega
    dsimp only at hread
    split at hread
    all_goals
      simp only [Option.bind_eq_bind, Option.bind_eq_some_iff, Prod.exists, Option.pure_def,
        Option.some.injEq, Prod.mk.injEq, Option.ite_none_left_eq_some] at hread
    case h_1 | h_2 =>
      obtain ⟨rfl, rfl⟩ := hread
      exact ⟨by constructor, by omega⟩
    case h_3 =>
      obtain ⟨chunks, _, hchunks, rfl, rfl⟩ := hread
      have hlen := length_of_readString hchunks
      exact ⟨.bytes, by omega⟩
    case h_4 =>
      obtain ⟨chunks, _, hchunks, rfl, rfl⟩ := hread
      have hlen := length_of_readString hchunks
      exact ⟨.text (by omega), by omega⟩
    case h_5 =>
      obtain ⟨-, items, _, hitems, rfl, rfl⟩ := hread
      obtain ⟨hall, hlen, hcount⟩ := (hinner _).contents htail hitems
      rw [Nat.div_one] at hcount
      exact ⟨.array hcount hall, by omega⟩
    case h_6 =>
      obtain ⟨-, items, _, hitems, entries, hentries, rfl, rfl⟩ := hread
      obtain ⟨hall, hlen, -⟩ := (hinner _).contents htail hitems
      exact ⟨.map fun e he => hall _ (mem_of_pairs hentries he), by omega⟩
    case h_7 =>
      have hcontent : ∃ levels content, readItem steps levels tail = some (content, rest) ∧
          .tag h.value content = item := by
        split at hread
        all_goals simp only [Option.bind_eq_some_iff, Prod.exists, Option.some.injEq,
          Prod.mk.injEq, Option.ite_none_left_eq_some] at hread
        · obtain ⟨-, content, _, hcontent, htag, rfl⟩ := hread
          exact ⟨_, content, hcontent, htag⟩
        · obtain ⟨content, _, hcontent, htag, rfl⟩ := hread
          exact ⟨_, content, hcontent, htag⟩
      obtain ⟨levels, content, hcontent, rfl⟩ := hcontent
      obtain ⟨hbounded, hlen⟩ := hinner levels htail hcontent
      exact ⟨.tag hbounded, by omega⟩
    case h_8 =>
      split at hread
      all_goals
        obtain ⟨rfl, rfl⟩ := hread
        exact ⟨by constructor, by omega⟩

theorem Item.bounded_of_decode (h : Item.decode bytes = some item) : item.Bounded bytes.length := by
  rw [Item.decode] at h
  split at h
  · rename_i found hread
    obtain rfl := Option.some.inj h
    exact (reads_readItem _ _ _ (Nat.le_refl _) hread).1
  · cases h

end

-- ---------------------------------------------------------------------------
-- Values
-- ---------------------------------------------------------------------------

namespace Item

structure Kind.Gives (n : Nat) (k : Kind α) (P : α → Prop) : Prop where
  zero : P k.zero
  read : ∀ item a, item.Bounded n → k.read item = some a → P a

section
variable {n : Nat} {k : Kind α} {P : α → Prop} {item : Item}

theorem Bounded.of_untagged {plain : Item} (h : item.Bounded n)
    (hitem : item.untagged = some plain) : plain.Bounded n := by
  fun_induction Item.untagged item with
  | case1 =>
    obtain rfl := Option.some.inj hitem
    exact .unsigned
  | case3 =>
    obtain rfl := Option.some.inj hitem
    exact .negative
  | case5 number content _ _ _ ih =>
    cases h with
    | tag hcontent => exact ih hcontent hitem
  | case7 item _ =>
    obtain rfl := Option.some.inj hitem
    exact h
  | case2 | case4 | case6 => cases hitem

theorem Kind.Gives.ofItem (hk : k.Gives n P) (hitem : item.Bounded n)
    (h : k.ofItem item = some a) : P a := by
  rw [Kind.ofItem] at h
  split at h
  · cases h
  · rename_i plain hplain
    split at h
    · obtain rfl := Option.some.inj h
      exact hk.zero
    · exact hk.read plain a (hitem.of_untagged hplain) h

theorem Kind.Gives.field (hk : k.Gives n P) (hes : ∀ e ∈ es, e.2.Bounded n)
    (h : field es key k = some a) : P a := by
  rw [Item.field] at h
  split at h
  · rename_i hfind
    exact hk.ofItem (hes _ (List.mem_of_find?_eq_some hfind)) h
  · obtain rfl := Option.some.inj h
    exact hk.zero

theorem Bounded.of_entries? (h : item.Bounded n) (hes : entries? item = some es) :
    ∀ e ∈ es, e.2.Bounded n := by
  cases h with
  | map hall =>
    rw [entries?] at hes
    split at hes
    · obtain rfl := Option.some.inj hes
      exact hall
    · cases hes
  | _ => cases hes

theorem Bounded.of_text? (h : item.Bounded n) (hb : item.text? = some b) :
    b.length ≤ n ∧ Utf8.isValid b = true := by
  cases h with
  | text hlen =>
    rw [text?] at hb
    split at hb
    · rename_i hvalid
      obtain rfl := Option.some.inj hb
      exact ⟨hlen, Utf8.isValid_flatten hvalid⟩
    · cases hb
  | _ => cases hb

theorem gives_bytes (n : Nat) :
    Kind.bytes.Gives n fun b => b.length ≤ n ∧ Utf8.isValid b = true where
  zero := ⟨Nat.zero_le n, Utf8.isValid_nil⟩
  read _ _ hitem h := hitem.of_text? h

theorem gives_string (n : Nat) : Kind.string.Gives n (·.utf8ByteSize ≤ n) where
  zero := Nat.zero_le n
  read item s hitem h := by
    obtain ⟨b, hb, hs⟩ := Option.bind_eq_some_iff.mp h
    rw [← Utf8.length_bytesOf, Utf8.bytesOf_of_text? hs]
    exact (hitem.of_text? hb).1

theorem gives_any (n : Nat) (k : Kind α) : k.Gives n fun _ => True :=
  ⟨trivial, fun _ _ _ _ => trivial⟩

theorem Kind.Gives.mapM (hk : k.Gives n P) {items : List Item} {l : List α}
    (hitems : ∀ i ∈ items, i.Bounded n) (h : items.mapM k.ofItem = some l) :
    l.length = items.length ∧ ∀ a ∈ l, P a := by
  induction items generalizing l with
  | nil =>
    obtain rfl := Option.some.inj h
    simp
  | cons item items ih =>
    rw [List.mapM_cons] at h
    obtain ⟨a, ha, h⟩ := Option.bind_eq_some_iff.mp h
    obtain ⟨rest, hrest, h⟩ := Option.bind_eq_some_iff.mp h
    obtain rfl := Option.some.inj h
    obtain ⟨hlen, hall⟩ := ih (fun i hi => hitems i (by simp [hi])) hrest
    refine ⟨by simp [hlen], List.forall_mem_cons.mpr ⟨?_, hall⟩⟩
    exact hk.ofItem (hitems item (by simp)) ha

theorem Kind.Gives.list (hk : k.Gives n P) : (Kind.list k).Gives n (Image.Within P) where
  zero := by
    intro l hl
    cases hl
  read item a hitem h := by
    cases hitem with
    | array hlen hall =>
      obtain ⟨l, hl, rfl⟩ := Option.map_eq_some_iff.mp h
      obtain ⟨hlength, hP⟩ := hk.mapM hall hl
      intro l' hl'
      obtain rfl := Option.some.inj hl'
      exact ⟨hlength ▸ hlen, hP⟩
    | _ => cases h

end

end Item

end Cbor

-- ---------------------------------------------------------------------------
-- Images
-- ---------------------------------------------------------------------------

namespace Image

open Cbor.Item (gives_any gives_bytes gives_string)

structure Member.Bounded (n : Nat) (m : Member) : Prop where
  name : m.name.utf8ByteSize ≤ n
  type : m.type.utf8ByteSize ≤ n
  params : Within (·.utf8ByteSize ≤ n) m.params

structure Instr.Bounded (n : Nat) (i : Instr) : Prop where
  type : i.type.utf8ByteSize ≤ n
  targets : Within (fun _ => True) i.targets
  str : i.str.length ≤ n ∧ Utf8.isValid i.str = true

structure Block.Bounded (n : Nat) (b : Block) : Prop where
  code : Within (Instr.Bounded n) b.code
  succs : Within (fun _ => True) b.succs

/-- An image whose lists the reader allows, with no text of more than `n` bytes. -/
structure Bounded (n : Nat) (img : Image) : Prop where
  runId : img.runId.utf8ByteSize ≤ n
  classes : Within (·.name.utf8ByteSize ≤ n) img.classes
  members : Within (Member.Bounded n) img.members
  blocks : Within (Block.Bounded n) img.blocks
  bodies : Within (fun _ => True) img.bodies
  reachable : Within (fun _ => True) img.reachable

theorem within_none (P : α → Prop) : Within P none := by
  intro l hl
  cases hl

section
variable (n : Nat)

theorem gives_class : Class.schema.Gives n (·.name.utf8ByteSize ≤ n) where
  zero := Nat.zero_le n
  read item c hitem h := by
    simp only [Class.schema, Option.bind_eq_bind, Option.bind_eq_some_iff, Option.pure_def,
      Option.some.injEq] at h
    obtain ⟨es, hes, name, hname, super, -, rfl⟩ := h
    exact (gives_string n).field (hitem.of_entries? hes) hname

theorem gives_member : Member.schema.Gives n (Member.Bounded n) where
  zero := ⟨Nat.zero_le n, Nat.zero_le n, within_none _⟩
  read item m hitem h := by
    simp only [Member.schema, Option.bind_eq_bind, Option.bind_eq_some_iff, Option.pure_def,
      Option.some.injEq] at h
    obtain ⟨es, hes, kind, -, owner, -, name, hname, type, htype, params, hparams, rfl⟩ := h
    have hbounded := hitem.of_entries? hes
    exact ⟨(gives_string n).field hbounded hname, (gives_string n).field hbounded htype,
      (gives_string n).list.field hbounded hparams⟩

theorem gives_instr : Instr.schema.Gives n (Instr.Bounded n) where
  zero := ⟨Nat.zero_le n, within_none _, (gives_bytes n).zero⟩
  read item i hitem h := by
    simp only [Instr.schema, Option.bind_eq_bind, Option.bind_eq_some_iff, Option.pure_def,
      Option.some.injEq] at h
    obtain ⟨es, hes, op, -, type, htype, slot, -, sub, -, member, -, targets, htargets, resolved, -,
      int, -, float, -, bool, -, str, hstr, rfl⟩ := h
    have hbounded := hitem.of_entries? hes
    exact ⟨(gives_string n).field hbounded htype, (gives_any n _).list.field hbounded htargets,
      (gives_bytes n).field hbounded hstr⟩

theorem gives_block : Block.schema.Gives n (Block.Bounded n) where
  zero := ⟨within_none _, within_none _⟩
  read item b hitem h := by
    simp only [Block.schema, Option.bind_eq_bind, Option.bind_eq_some_iff, Option.pure_def,
      Option.some.injEq] at h
    obtain ⟨es, hes, code, hcode, succs, hsuccs, fixed, -, rfl⟩ := h
    have hbounded := hitem.of_entries? hes
    exact ⟨(gives_instr n).list.field hbounded hcode, (gives_any n _).list.field hbounded hsuccs⟩

theorem gives_image : schema.Gives n (Bounded n) where
  zero := ⟨Nat.zero_le n, within_none _, within_none _, within_none _, within_none _, within_none _⟩
  read item img hitem h := by
    simp only [schema, Option.bind_eq_bind, Option.bind_eq_some_iff, Option.pure_def,
      Option.some.injEq] at h
    obtain ⟨es, hes, version, -, runId, hrunId, classes, hclasses, members, hmembers, blocks,
      hblocks, bodies, hbodies, entry, -, linked, -, reachable, hreachable, rfl⟩ := h
    have hbounded := hitem.of_entries? hes
    exact ⟨(gives_string n).field hbounded hrunId, (gives_class n).list.field hbounded hclasses,
      (gives_member n).list.field hbounded hmembers, (gives_block n).list.field hbounded hblocks,
      (gives_any n _).list.field hbounded hbodies,
      (gives_any n _).list.field hbounded hreachable⟩

end

theorem bounded_of_unmarshal (h : unmarshal bytes = some img) : img.Bounded bytes.length := by
  obtain ⟨item, hitem, h⟩ := Option.bind_eq_some_iff.mp h
  exact (gives_image _).ofItem (Cbor.Item.bounded_of_decode hitem) h

end Image

end Linkage
