import Linkage.Proofs.Reading
import Linkage.Proofs.Refusals
import Linkage.Proofs.RoundTrip

/-!
# Images that their own reader refuses

Whatever is complete is written, and whatever is in order is accepted once it is read. In between
are the limits of the bytes: lists of at most so many elements, and text that is UTF-8. The writer
looks at neither, so these limits, and nothing else, decide whether what it wrote can be read.
-/

namespace Linkage

open Cbor (maxElements)

-- ---------------------------------------------------------------------------
-- Programs in order
-- ---------------------------------------------------------------------------

/-- What an instruction has to satisfy apart from its type and apart from all limits. -/
def Instruction.OperandsTyped (d : Declarations) (calls : Array Call) : Instruction → Prop
  | .const t value => t = value.type ∧ ∀ bytes, value = .string bytes → bytes.length < 2 ^ 64
  | .arith op _ => op.code.toNat < ArithOp.names.length
  | .compare c _ | .guard c _ => c.code.toNat < Cond.names.length
  | .getField m | .putField m => d.isCode m = false
  | .call site => ∀ c, calls[site]? = some c → ∀ m, some m ∈ c.callee :: c.targetList → d.isCode m
  | _ => True

structure Instruction.Typed (d : Declarations) (calls : Array Call) (i : Instruction) : Prop where
  type : i.type = .absent ∨ i.type.Portable
  operands : i.OperandsTyped d calls

/-- A program in order: what is listed has names and types, and stands where it may stand. -/
structure Registry.Typed (d : Declarations) (g : Graph) (code : Registry) (entry : MemberId) :
    Prop where
  main : d.isCode entry
  bodies : ∀ body ∈ code, d.isCode body.1
  classes : ∀ c k, code.ListsClass d g entry c → d.classes[c]? = some k → k.Portable
  acyclic : ∀ c, code.ListsClass d g entry c → ¬ Relation.TransGen d.Extends c c
  members : ∀ m k, code.ListsMember g entry m → d.members[m]? = some k →
    Image.Short k.name ∧ ∀ t ∈ k.types, t.Portable
  blocks : ∀ r b, code.ListsBlock g r → g.blocks[r]? = some b →
    b.code ≠ [] ∧ ∀ i ∈ b.code, i.Typed d g.calls

def Instruction.Legible (calls : Array Call) : Instruction → Prop
  | .const _ (.string bytes) => Utf8.isValid bytes = true
  | .call site => ∀ c, calls[site]? = some c → c.targetList.length ≤ maxElements
  | _ => True

/-- A program within the limits of what can be read: all its lists, and its text. -/
structure Registry.Legible (d : Declarations) (g : Graph) (code : Registry) (entry : MemberId) :
    Prop where
  params : ∀ m k, code.ListsMember g entry m → d.members[m]? = some k →
    k.params.length ≤ maxElements
  blocks : ∀ r b, code.ListsBlock g r → g.blocks[r]? = some b →
    b.code.length ≤ maxElements ∧ b.succs.length ≤ maxElements ∧ ∀ i ∈ b.code, i.Legible g.calls
  classLimit : {c | code.ListsClass d g entry c}.encard ≤ maxElements
  memberLimit : {m | code.ListsMember g entry m}.encard ≤ maxElements
  blockLimit : {r | code.ListsBlock g r}.encard ≤ maxElements

section
variable {d : Declarations} {g : Graph} {code : Registry} {entry : MemberId}

theorem Instruction.portable_of_typed {calls : Array Call} {i : Instruction}
    (hc : i.Complete calls) (ht : i.Typed d calls) (hl : i.Legible calls) :
    i.Portable d calls := by
  refine ⟨ht.type, ?_⟩
  have hoperands := ht.operands
  cases i with
  | const t value =>
    refine ⟨hoperands.1, ?_⟩
    cases value with
    | string bytes => exact ⟨hl, hoperands.2 bytes rfl⟩
    | _ => trivial
  | call site =>
    obtain ⟨c, hsite, hnone⟩ := hc
    have hcode := hoperands c hsite
    have hthere : ∀ target ∈ c.callee :: c.targetList, ∃ m, target = some m ∧ d.isCode m := by
      rintro (_ | m) hm
      · exact absurd hm hnone
      · exact ⟨m, rfl, hcode m hm⟩
    refine ⟨c, hsite, hthere _ (by simp), fun target ht => hthere target (by simp [ht]), hl c hsite⟩
  | _ => exact hoperands

theorem Registry.portable_of_typed (hkeys : (code.map (·.1)).Nodup)
    (hc : code.Complete d g entry) (ht : code.Typed d g entry) (hl : code.Legible d g entry) :
    code.Portable d g entry where
  keys := hkeys
  rooted := hc.rooted
  main := ht.main
  bodies := ht.bodies
  classes c hlists := by
    obtain ⟨k, hk⟩ := hc.classes c hlists
    exact ⟨k, hk, ht.classes c k hlists hk⟩
  acyclic := ht.acyclic
  members m hlists := by
    obtain ⟨k, hk⟩ := hc.members m hlists
    obtain ⟨hname, htypes⟩ := ht.members m k hlists hk
    exact ⟨k, hk, hname, htypes, hl.params m k hlists hk⟩
  blocks r hlists := by
    obtain ⟨b, hb, hcomplete⟩ := hc.blocks r hlists
    obtain ⟨hne, htyped⟩ := ht.blocks r b hlists hb
    obtain ⟨hcode, hsuccs, hlegible⟩ := hl.blocks r b hlists hb
    refine ⟨b, hb, hne, hcomplete.succs, fun i hi => ?_, hcode, hsuccs⟩
    exact Instruction.portable_of_typed (hcomplete.code i hi) (htyped i hi) (hlegible i hi)
  classLimit := hl.classLimit
  memberLimit := hl.memberLimit
  blockLimit := hl.blockLimit

end

-- ---------------------------------------------------------------------------
-- What the limits of an image say of its program
-- ---------------------------------------------------------------------------

namespace Numbering

open Image
open Image.Encoder (position nonempty)

section
variable {n : Numbering} {d : Declarations} {g : Graph} {code : Registry} {entry : MemberId}
  {runId : RunId} {N : Nat}

theorem Covers.classRow_mem (hn : n.Covers d g code entry) (hc : code.ListsClass d g entry c)
    (hk : d.classes[c]? = some k) :
    classRow (number n.classes) k ∈ (n.image d g entry runId).normal.classes.getD [] := by
  rw [normal_image_classes, ← Declarations.classAt_eq hk]
  exact List.mem_map_of_mem ((hn.classes c).mpr hc)

theorem Covers.memberRow_mem (hn : n.Covers d g code entry) (hm : code.ListsMember g entry m)
    (hk : d.members[m]? = some k) :
    memberRow (number n.classes) k ∈ (n.image d g entry runId).normal.members.getD [] := by
  rw [normal_image_members, ← Declarations.memberAt_eq hk]
  exact List.mem_map_of_mem (List.mem_map_of_mem ((hn.members m).mpr hm))

theorem Covers.blockRow_mem (hn : n.Covers d g code entry) (hr : code.ListsBlock g r)
    (hb : g.blocks[r]? = some b) :
    (blockRow (number n.classes) (number n.members) (number n.blocks) g.calls b).normal ∈
      (n.image d g entry runId).normal.blocks.getD [] := by
  rw [normal_image_blocks, ← Graph.blockAt_eq hb]
  exact List.mem_map_of_mem (List.mem_map_of_mem ((hn.blocks r).mpr hr))

theorem code_blockRow {κ : ClassId → Nat} {μ : MemberId → Nat} {β : BlockRef → Nat}
    (calls : Array Call) (b : Linkage.Block) :
    (blockRow κ μ β calls b).normal.code.getD [] =
      b.code.map fun i => (instrRow κ μ calls i).normal := by
  simp [blockRow, Image.Block.normal]

theorem instrRow_mem {κ : ClassId → Nat} {μ : MemberId → Nat} {β : BlockRef → Nat}
    {calls : Array Call} {b : Linkage.Block} (hi : i ∈ b.code) :
    (instrRow κ μ calls i).normal ∈ (blockRow κ μ β calls b).normal.code.getD [] := by
  rw [code_blockRow]
  exact List.mem_map_of_mem hi

theorem legible_of_bounded_row {κ : ClassId → Nat} {μ : MemberId → Nat} {calls : Array Call}
    {i : Instruction} (h : (instrRow κ μ calls i).normal.Bounded N) : i.Legible calls := by
  cases i with
  | const t value =>
    cases value with
    | string bytes => exact h.str.2
    | _ => trivial
  | call site =>
    intro c hc
    have hlen := h.targets.getD.1
    simpa [instrRow, callRow, Instr.normal, Array.getD_eq_getD_getElem?, hc] using hlen
  | _ => trivial

theorem lengths_of_bounded (h : (n.image d g entry runId).normal.Bounded N) :
    n.classes.length ≤ maxElements ∧ n.members.length ≤ maxElements ∧
      n.blocks.length ≤ maxElements := by
  have hclasses := h.classes.getD.1
  have hmembers := h.members.getD.1
  have hblocks := h.blocks.getD.1
  rw [normal_image_classes, List.length_map] at hclasses
  rw [normal_image_members, List.length_map, List.length_map] at hmembers
  rw [normal_image_blocks, List.length_map, List.length_map] at hblocks
  exact ⟨hclasses, hmembers, hblocks⟩

theorem Covers.legible (hn : n.Covers d g code entry)
    (h : (n.image d g entry runId).normal.Bounded N) : code.Legible d g entry where
  params m k hm hk := by
    have hrow := h.members.getD.2 _ (hn.memberRow_mem hm hk)
    simpa [params_memberRow] using hrow.params.getD.1
  blocks r b hr hb := by
    have hrow := h.blocks.getD.2 _ (hn.blockRow_mem hr hb)
    refine ⟨?_, ?_, fun i hi => ?_⟩
    · simpa [blockRow, Image.Block.normal] using hrow.code.getD.1
    · simpa [blockRow, Image.Block.normal] using hrow.succs.getD.1
    · exact legible_of_bounded_row (hrow.code.getD.2 _ (instrRow_mem hi))
  classLimit := encard_le_of_length (fun c => (hn.classes c).mpr) (lengths_of_bounded h).1
  memberLimit := encard_le_of_length (fun m => (hn.members m).mpr) (lengths_of_bounded h).2.1
  blockLimit := encard_le_of_length (fun r => (hn.blocks r).mpr) (lengths_of_bounded h).2.2

end

end Numbering

-- ---------------------------------------------------------------------------
-- Reading what was written
-- ---------------------------------------------------------------------------

namespace Image

section
variable {d : Declarations} {g : Graph} {code : Registry} {entry : MemberId} {runId : RunId}
  {bytes : List UInt8}

theorem encodeCode_ok (hkeys : (code.map (·.1)).Nodup)
    (h : encodeCode d g code (some entry) runId = .ok bytes) :
    code.Complete d g entry ∧ ∃ n : Numbering, n.Covers d g code entry ∧
      bytes = marshal (n.image d g entry runId) := by
  cases himg : ofCode d g code (some entry) runId with
  | error e => simp [encodeCode, himg, Except.map] at h
  | ok img =>
    obtain ⟨hcomplete, n, hn, -, rfl⟩ := ofCode_ok hkeys himg
    refine ⟨hcomplete, n, hn, ?_⟩
    simpa [encodeCode, himg, Except.map, eq_comm] using h

/-- The bytes of a program in order are read again exactly if the program is within the limits of
what can be read. The writer does not look at these limits: beyond them it succeeds all the same,
and the bytes are refused as such. -/
theorem decode_encodeCode_iff (hkeys : (code.map (·.1)).Nodup) (ht : code.Typed d g entry)
    (hid : runId.bytes.length = 16) (hcode : encodeCode d g code (some entry) runId = .ok bytes)
    (hlen : bytes.length < 2 ^ 63) (issued : Nat) :
    ((∃ u, (LinkUnit.decode bytes issued).1 = .ok u) ↔ code.Legible d g entry) ∧
      ((LinkUnit.decode bytes issued).1 = .error .bytes ↔ ¬ code.Legible d g entry) := by
  obtain ⟨hcomplete, n, hn, hbytes⟩ := encodeCode_ok hkeys hcode
  cases hread : unmarshal bytes with
  | none =>
    have hno : ¬ code.Legible d g entry := by
      intro hl
      have hp := Registry.portable_of_typed hkeys hcomplete ht hl
      rw [hbytes, unmarshal_marshal (hn.fits hp hid)] at hread
      cases hread
    simp [LinkUnit.decode, hread, hno]
  | some x =>
    have hlimit : (marshal (n.image d g entry runId)).length < 2 ^ 64 := by
      rw [← hbytes]
      omega
    obtain rfl := normal_of_unmarshal hlimit (hbytes ▸ hread)
    have hl := hn.legible (bounded_of_unmarshal hread)
    have hp := Registry.portable_of_typed hkeys hcomplete ht hl
    obtain ⟨u, next, hdecode, -⟩ := hn.decode hp hid issued
    simp [LinkUnit.decode, hread, hdecode, hl]

end

/-- A program in order with a string constant that is no text. -/
def garbledDeclarations : Declarations where
  classes := #[⟨"Main", none⟩]
  members := #[.method 0 "main" [] (.primitive .void)]

def garbledGraph : Graph where
  blocks := #[{ id := 0, code := [.ofConstant (.string [0xFF])], succs := [], mergeable := true }]

def garbledCode : Registry := [(0, some 0)]

theorem garbledCode_typed : garbledCode.Typed garbledDeclarations garbledGraph 0 where
  main := by decide
  bodies := by decide
  classes c k _ hk := by
    have hall : ∀ k ∈ garbledDeclarations.classes, k.Portable := by decide
    exact hall k (Array.mem_of_getElem? hk)
  acyclic c _ hcycle := by
    obtain ⟨s, hs, -⟩ := Relation.TransGen.head'_iff.mp hcycle
    have hall : ∀ k ∈ garbledDeclarations.classes, k.super = none := by decide
    obtain ⟨k, hk, hsuper⟩ := Option.bind_eq_some_iff.mp hs
    simp [hall k (Array.mem_of_getElem? hk)] at hsuper
  members m k _ hk := by
    have hall : ∀ k ∈ garbledDeclarations.members, Short k.name ∧ ∀ t ∈ k.types, t.Portable := by
      decide
    exact hall k (Array.mem_of_getElem? hk)
  blocks r b _ hb := by
    have hmem : b ∈ garbledGraph.blocks.toList :=
      Array.mem_toList_iff.mpr (Array.mem_of_getElem? hb)
    obtain rfl := List.mem_singleton.mp hmem
    refine ⟨by decide, fun i hi => ?_⟩
    obtain rfl := List.mem_singleton.mp hi
    exact ⟨by decide, rfl, fun bytes h => by obtain rfl := Constant.string.inj h; decide⟩

theorem garbledCode_bytes :
    ∃ bytes, encodeCode garbledDeclarations garbledGraph garbledCode (some 0) .zero = .ok bytes ∧
      bytes.length < 2 ^ 63 ∧ unmarshal bytes = none := by
  have hrun : ((encodeCode garbledDeclarations garbledGraph garbledCode (some 0) .zero).toOption.map
      fun bytes => (bytes.length, (unmarshal bytes).isNone)) = some (100, true) := by
    decide +kernel
  cases hcode : encodeCode garbledDeclarations garbledGraph garbledCode (some 0) .zero with
  | error e => simp [hcode, Except.toOption] at hrun
  | ok bytes =>
    simp only [hcode, Except.toOption, Option.map_some, Option.some.injEq, Prod.mk.injEq,
      Option.isNone_iff_eq_none] at hrun
    exact ⟨bytes, rfl, by omega, hrun.2⟩

theorem decode_encodeCode_iff_garbled :
    garbledCode.Typed garbledDeclarations garbledGraph 0 ∧
      ∃ bytes, encodeCode garbledDeclarations garbledGraph garbledCode (some 0) .zero = .ok bytes ∧
        bytes.length < 2 ^ 63 ∧ (LinkUnit.decode bytes 0).1 = .error .bytes := by
  obtain ⟨bytes, hcode, hlen, -⟩ := garbledCode_bytes
  have hiff := decode_encodeCode_iff (by decide) garbledCode_typed (by decide) hcode hlen 0
  refine ⟨garbledCode_typed, bytes, hcode, hlen, hiff.2.mpr fun hl => ?_⟩
  obtain ⟨-, -, hlegible⟩ := hl.blocks 0 _ ⟨0, 0, rfl, .refl⟩ rfl
  have hvalid : Utf8.isValid [0xFF] = true := hlegible _ (List.mem_singleton.mpr rfl)
  revert hvalid
  decide

/-- Not everything in order that is written can be read again. -/
theorem encodeCode_unreadable :
    ¬ ∀ (d : Declarations) (g : Graph) (code : Registry) (entry : MemberId) (runId : RunId)
      (bytes : List UInt8), (code.map (·.1)).Nodup → code.Typed d g entry →
        runId.bytes.length = 16 → encodeCode d g code (some entry) runId = .ok bytes →
        ∃ u, (LinkUnit.decode bytes 0).1 = .ok u := by
  intro h
  obtain ⟨bytes, hcode, -, hnone⟩ := garbledCode_bytes
  obtain ⟨u, hu⟩ := h _ _ _ 0 .zero bytes (by decide) garbledCode_typed (by decide) hcode
  simp [LinkUnit.decode, hnone] at hu

end Image

end Linkage
