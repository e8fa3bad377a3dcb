import Linkage.Proofs.Rows
import Mathlib.Data.List.Forall2
import Mathlib.Data.Nat.Digits.Defs

/-!
# Numbered programs

The classes, members, blocks and bodies of a program as lists, which give everything its number, and
the image that says all of it in these numbers. The image of a portable program is within the limits
of the format.
-/

namespace Linkage

def number (l : List Nat) (x : Nat) : Nat := l.idxOf x

section
variable {l : List Nat} {x : Nat}

theorem number_lt (h : x ∈ l) : number l x < l.length := List.idxOf_lt_length_iff.mpr h

theorem getElem?_number (h : x ∈ l) : l[number l x]? = some x := List.getElem?_idxOf h

theorem number_inj (h : x ∈ l) : number l x = number l y ↔ x = y := List.idxOf_inj h

theorem number_of_getElem? (hn : l.Nodup) (h : l[i]? = some x) : number l x = i := by
  obtain ⟨hi, rfl⟩ := List.getElem?_eq_some_iff.mp h
  exact hn.idxOf_getElem i hi

theorem number_bijOn (hn : l.Nodup) {P : Nat → Prop} (hP : ∀ x, x ∈ l ↔ P x) (hk : k = l.length) :
    Set.BijOn (number l) {x | P x} {i | i < k} := by
  subst hk
  refine ⟨fun x hx => number_lt ((hP x).mpr hx), fun x hx y _ h => ?_, fun i hi => ?_⟩
  · exact (number_inj ((hP x).mpr hx)).mp h
  · exact ⟨l.get ⟨i, hi⟩, (hP _).mp (List.get_mem l _),
      number_of_getElem? hn (List.getElem?_eq_getElem hi)⟩

end

theorem exists_of_forall₂ {P : α → β → Prop} (h : List.Forall₂ P xs ys) (ha : a ∈ xs) :
    ∃ b ∈ ys, P a b := by
  induction h with
  | nil => cases ha
  | cons hab _ ih =>
    rcases List.mem_cons.mp ha with rfl | ha
    · exact ⟨_, List.mem_cons_self, hab⟩
    · exact (ih ha).imp fun _ h => ⟨List.mem_cons_of_mem _ h.1, h.2⟩

theorem forall₂_mem {P : α → β → Prop} (h : List.Forall₂ P xs ys) :
    List.Forall₂ (fun a b => a ∈ xs ∧ P a b) xs ys :=
  (List.forall₂_and_left xs ys).mpr ⟨fun _ ha => ha, h⟩

-- ---------------------------------------------------------------------------
-- Numbered programs
-- ---------------------------------------------------------------------------

/-- The class with a number; the other cases of this kind do not occur. -/
def Declarations.classAt (d : Declarations) (c : ClassId) : ClassDecl := d.classes.getD c ⟨"", none⟩

def Declarations.memberAt (d : Declarations) (m : MemberId) : Member :=
  d.members.getD m (.ctor 0 [])

def Graph.blockAt (g : Graph) (r : BlockRef) : Block :=
  g.blocks.getD r { id := 0, code := [], succs := [], mergeable := false }

theorem Declarations.classAt_eq {d : Declarations} (h : d.classes[c]? = some k) :
    d.classAt c = k := by
  simp [classAt, Array.getD_eq_getD_getElem?, h]

theorem Declarations.memberAt_eq {d : Declarations} (h : d.members[m]? = some k) :
    d.memberAt m = k := by
  simp [memberAt, Array.getD_eq_getD_getElem?, h]

theorem Graph.blockAt_eq {g : Graph} {r : BlockRef} (h : g.blocks[r]? = some b) :
    g.blockAt r = b := by
  simp [blockAt, Array.getD_eq_getD_getElem?, h]

structure Numbering where
  classes : List ClassId
  members : List MemberId
  blocks : List BlockRef
  bodies : List (MemberId × BlockRef)

namespace Numbering

/-- The lists hold everything that an image has to list, once each. -/
structure Covers (n : Numbering) (d : Declarations) (g : Graph) (code : Registry)
    (entry : MemberId) : Prop where
  classesNodup : n.classes.Nodup
  membersNodup : n.members.Nodup
  blocksNodup : n.blocks.Nodup
  bodiesNodup : (n.bodies.map (·.1)).Nodup
  classes : ∀ c, c ∈ n.classes ↔ code.ListsClass d g entry c
  members : ∀ m, m ∈ n.members ↔ code.ListsMember g entry m
  blocks : ∀ r, r ∈ n.blocks ↔ code.ListsBlock g r
  bodies : ∀ m r, (m, r) ∈ n.bodies ↔ code.body? m = some r

open Image
open Image.Encoder (position nonempty)

def image (n : Numbering) (d : Declarations) (g : Graph) (entry : MemberId) (runId : RunId) :
    Image where
  version := currentVersion
  runId := runId.text
  classes := nonempty (n.classes.map fun c => classRow (number n.classes) (d.classAt c))
  members := nonempty (n.members.map fun m => memberRow (number n.classes) (d.memberAt m))
  blocks := nonempty (n.blocks.map fun r =>
    blockRow (number n.classes) (number n.members) (number n.blocks) g.calls (g.blockAt r))
  bodies := nonempty (n.bodies.map (bodyRow (number n.members) (number n.blocks)))
  entry := position (number n.members entry)

end Numbering

-- ---------------------------------------------------------------------------
-- The limits of the format
-- ---------------------------------------------------------------------------

namespace Image

open Encoder (nonempty)

section
variable {κ : ClassId → Nat} {μ : MemberId → Nat} {β : BlockRef → Nat}

theorem within_nonempty {P : α → Prop} {xs : List α} (hlen : xs.length ≤ Cbor.maxElements)
    (h : ∀ a ∈ xs, P a) : Within P (nonempty xs) := by
  intro l hl
  unfold nonempty at hl
  split at hl
  · simp at hl
  · obtain rfl : xs = l := by simpa using hl
    exact ⟨hlen, h⟩

theorem utf8ByteSize_toString (h : n < 10 ^ e) (he : 0 < e) : (toString n).utf8ByteSize ≤ e := by
  have hascii : ∀ c ∈ Nat.toDigits 10 n, c.toNat < 128 := by
    intro c hc
    have hdigit := Nat.isDigit_of_mem_toDigits (by decide) (by decide) hc
    simp only [Char.isDigit, ge_iff_le, UInt32.le_iff_toNat_le, Bool.and_eq_true,
      decide_eq_true_eq] at hdigit
    have : c.toNat ≤ 57 := hdigit.2
    omega
  rw [← Utf8.length_bytesOf, Nat.toString_eq_ofList_toDigits, Utf8.bytesOf_ascii _ hascii,
    List.length_map]
  exact Nat.toDigits_length 10 n e he h

theorem utf8ByteSize_name (p : Primitive) : p.name.utf8ByteSize ≤ 7 := by
  cases p <;> exact Nat.le_of_ble_eq_true rfl

theorem utf8ByteSize_spelling (t : Ty) (hκ : ∀ c ∈ t.class?, κ c < 10 ^ 19) :
    (t.spelling κ).utf8ByteSize ≤ t.depth + 20 := by
  induction t with
  | absent => simp [Ty.spelling]
  | primitive p =>
    have := utf8ByteSize_name p
    simp only [Ty.spelling]
    omega
  | object c =>
    have := utf8ByteSize_toString (hκ c rfl) (by decide)
    have hat : "@".utf8ByteSize = 1 := by decide
    simp only [Ty.spelling, String.utf8ByteSize_append, hat]
    omega
  | array t ih =>
    have := ih hκ
    have hat : "[".utf8ByteSize = 1 := by decide
    simp only [Ty.spelling, String.utf8ByteSize_append, hat, Ty.depth]
    omega

theorem short_spelling {t : Ty} (ht : t = .absent ∨ t.Portable)
    (hκ : ∀ c ∈ t.class?, κ c < 10 ^ 19) : Short (t.spelling κ) := by
  have hsize := utf8ByteSize_spelling t hκ
  have hdepth : t.depth < 2 ^ 63 := by
    rcases ht with rfl | ht
    · decide
    · exact ht.2
  unfold Short
  omega

theorem fits_memberRow {k : Linkage.Member} (hk : k.Portable)
    (hκ : ∀ c, k.Mentions c → κ c < 10 ^ 19) : (memberRow κ k).Fits := by
  have hshort : ∀ t ∈ k.types, Short (t.spelling κ) := fun t ht =>
    short_spelling (.inr (hk.types t ht)) fun c hc => hκ c (.inr ⟨t, ht, hc⟩)
  have hparams : Within Short (nonempty (k.params.map (Ty.spelling κ))) := by
    refine within_nonempty (by simpa using hk.params) fun s hs => ?_
    obtain ⟨t, ht, rfl⟩ := List.mem_map.mp hs
    exact hshort t (params_subset_types k ht)
  cases k with
  | field c name t =>
    exact ⟨hk.name, hshort t (by simp [Linkage.Member.types]), by intro l hl; cases hl⟩
  | method c name ps t =>
    exact ⟨hk.name, hshort t (by simp [Linkage.Member.types]), hparams⟩
  | ctor c ps => exact ⟨hk.name, show Short "" by decide, hparams⟩

theorem fits_instrRow {d : Declarations} {calls : Array Call} {i : Instruction}
    (hi : i.Portable d calls) (hκ : ∀ c ∈ i.type.class?, κ c < 10 ^ 19) :
    (instrRow κ μ calls i).Fits := by
  have htype : Short (instrRow κ μ calls i).type := by
    rw [type_instrRow]
    exact short_spelling hi.type hκ
  have hnone : Within (fun _ : Int64 => True) none := by intro l hl; cases hl
  have hempty : ([] : List UInt8).length < 2 ^ 64 := by decide
  cases i with
  | const t value =>
    cases value with
    | string bytes =>
      obtain ⟨-, hvalid, hlen⟩ := hi.operands
      exact ⟨htype, hnone, hlen, hvalid⟩
    | _ => exact ⟨htype, hnone, hempty, Utf8.isValid_nil⟩
  | call site =>
    obtain ⟨c, hget, hc⟩ := hi.operands
    refine ⟨htype, ?_, hempty, Utf8.isValid_nil⟩
    have hcall : calls.getD site { callee := none } = c := by
      simp [Array.getD_eq_getD_getElem?, hget]
    simp only [instrRow, hcall, callRow]
    exact within_nonempty (by simpa using hc.limit) fun _ _ => trivial
  | _ => exact ⟨htype, hnone, hempty, Utf8.isValid_nil⟩

theorem fits_blockRow {d : Declarations} {calls : Array Call} {b : Linkage.Block}
    (hb : b.Portable d calls) (hκ : ∀ i ∈ b.code, ∀ c ∈ i.type.class?, κ c < 10 ^ 19) :
    (blockRow κ μ β calls b).Fits where
  code := within_nonempty (by simpa using hb.codeLimit) fun row hrow => by
    obtain ⟨i, hi, rfl⟩ := List.mem_map.mp hrow
    exact fits_instrRow (hb.code i hi) (hκ i hi)
  succs := by
    rintro l ⟨⟩
    exact ⟨by simpa using hb.succsLimit, fun _ _ => trivial⟩

end

end Image

namespace Numbering

open Image

section
variable {n : Numbering} {d : Declarations} {g : Graph} {code : Registry} {entry : MemberId}
  {runId : RunId}

theorem Covers.class_lt (hn : n.Covers d g code entry) (hc : code.ListsClass d g entry c) :
    number n.classes c < n.classes.length := number_lt ((hn.classes c).mpr hc)

theorem Covers.member_lt (hn : n.Covers d g code entry) (hm : code.ListsMember g entry m) :
    number n.members m < n.members.length := number_lt ((hn.members m).mpr hm)

theorem Covers.block_lt (hn : n.Covers d g code entry) (hr : code.ListsBlock g r) :
    number n.blocks r < n.blocks.length := number_lt ((hn.blocks r).mpr hr)

theorem Covers.classes_length (hn : n.Covers d g code entry) (hp : code.Portable d g entry) :
    n.classes.length ≤ Cbor.maxElements :=
  length_le_of_encard hn.classesNodup (fun c hc => (hn.classes c).mp hc) hp.classLimit

theorem Covers.members_length (hn : n.Covers d g code entry) (hp : code.Portable d g entry) :
    n.members.length ≤ Cbor.maxElements :=
  length_le_of_encard hn.membersNodup (fun m hm => (hn.members m).mp hm) hp.memberLimit

theorem Covers.blocks_length (hn : n.Covers d g code entry) (hp : code.Portable d g entry) :
    n.blocks.length ≤ Cbor.maxElements :=
  length_le_of_encard hn.blocksNodup (fun r hr => (hn.blocks r).mp hr) hp.blockLimit

/-- Every body belongs to a member, so there are no more bodies than members. -/
theorem Covers.bodies_length (hn : n.Covers d g code entry) (hp : code.Portable d g entry) :
    n.bodies.length ≤ Cbor.maxElements := by
  rw [← List.length_map (f := (·.1))]
  refine length_le_of_encard hn.bodiesNodup (fun m hm => ?_) hp.memberLimit
  obtain ⟨⟨m, r⟩, hbody, rfl⟩ := List.mem_map.mp hm
  have hfind := Registry.body?_eq_some.mp ((hn.bodies m r).mp hbody)
  exact .body (by simp [hfind])

theorem Covers.fits (hn : n.Covers d g code entry) (hp : code.Portable d g entry)
    (hid : runId.bytes.length = 16) : (n.image d g entry runId).Fits := by
  have hκ : ∀ c, code.ListsClass d g entry c → number n.classes c < 10 ^ 19 := by
    intro c hc
    have := hn.class_lt hc
    have := hn.classes_length hp
    unfold Cbor.maxElements at this
    omega
  refine ⟨?_, within_nonempty (by simpa using hn.classes_length hp) fun row hrow => ?_,
    within_nonempty (by simpa using hn.members_length hp) fun row hrow => ?_,
    within_nonempty (by simpa using hn.blocks_length hp) fun row hrow => ?_,
    within_nonempty (by simpa using hn.bodies_length hp) fun _ _ => trivial, ?_⟩
  · have hlen := RunId.length_bytesOf_text runId hid
    rw [Utf8.length_bytesOf] at hlen
    show runId.text.utf8ByteSize < 2 ^ 64
    omega
  · obtain ⟨c, hc, rfl⟩ := List.mem_map.mp hrow
    obtain ⟨k, hk, hport⟩ := hp.classes c ((hn.classes c).mp hc)
    rw [Declarations.classAt_eq hk]
    exact hport.2
  · obtain ⟨m, hm, rfl⟩ := List.mem_map.mp hrow
    have hlists := (hn.members m).mp hm
    obtain ⟨k, hk, hport⟩ := hp.members m hlists
    rw [Declarations.memberAt_eq hk]
    exact fits_memberRow hport fun c hc => hκ c (hlists.mentions hk hc)
  · obtain ⟨r, hr, rfl⟩ := List.mem_map.mp hrow
    have hlists := (hn.blocks r).mp hr
    obtain ⟨b, hb, hport⟩ := hp.blocks r hlists
    rw [Graph.blockAt_eq hb]
    exact fits_blockRow hport fun i hi c hc => hκ c (.body hlists hb hi hc)
  · intro l hl
    cases hl

end

end Numbering

end Linkage
