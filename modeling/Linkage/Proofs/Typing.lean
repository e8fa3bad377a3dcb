import Linkage.Proofs.Legible

/-!
# Programs of accepted images

What an image that is accepted says of the program it was written from. All that the reader looks at
is spelled out in rows, so a program whose image is accepted is in order, but for its constants: the
row of a constant says nothing of a value that is not of its type.
-/

namespace Linkage

def Registry.ConstantsTyped (g : Graph) (code : Registry) : Prop :=
  ∀ r b t value, code.ListsBlock g r → g.blocks[r]? = some b → .const t value ∈ b.code →
    t = value.type

-- ---------------------------------------------------------------------------
-- Types
-- ---------------------------------------------------------------------------

namespace Image

section
variable {κ : ClassId → Nat} {count : Nat} {t : Ty}

theorem isWellFormed_of_denotes {t' : Ty} (h : Denotes count (t.spelling κ).toList t') :
    t.isWellFormed := by
  induction t generalizing t' with
  | absent => exact absurd h not_denotes_nil
  | primitive p =>
    cases p with
    | unknown code =>
      have hnone : Primitive.ofName? "unknown" = none := by decide
      have hread := typeOf_ok.mpr (.inr h)
      simp [typeOf, Ty.spelling, Primitive.name, typeOfChars, hnone] at hread
    | _ => rfl
  | object c => rfl
  | array t ih =>
    rw [Ty.spelling, String.toList_append] at h
    obtain ⟨e, he, -⟩ := denotes_array.mp h
    exact ih he

theorem depth_le_spelling (t : Ty) : t.depth ≤ (t.spelling κ).utf8ByteSize := by
  induction t with
  | array t ih =>
    have hbracket : "[".utf8ByteSize = 1 := by decide
    rw [Ty.spelling, String.utf8ByteSize_append, hbracket, Ty.depth]
    omega
  | _ => exact Nat.zero_le _

theorem portable_of_isType (h : IsType count (t.spelling κ))
    (hsize : (t.spelling κ).utf8ByteSize ≤ N) (hN : N < 2 ^ 63) : t.Portable := by
  obtain ⟨t', ht'⟩ := h
  have hdepth := depth_le_spelling (κ := κ) t
  exact ⟨isWellFormed_of_denotes ht', by omega⟩

theorem absent_of_spelling (h : t.spelling κ = "") : t = .absent := by
  have hnil : (t.spelling κ).toList = [] := by rw [h]; rfl
  cases t with
  | absent => rfl
  | primitive p => cases p <;> simp [Ty.spelling, Primitive.name] at h
  | object c => simp [Ty.spelling, String.toList_append] at hnil
  | array t => simp [Ty.spelling, String.toList_append] at hnil

end

end Image

-- ---------------------------------------------------------------------------
-- Members
-- ---------------------------------------------------------------------------

namespace Numbering

open Image
open Image.Encoder (position nonempty)

theorem eq_of_getElem?_map {l : List Nat} {f : Nat → α} (hx : x ∈ l)
    (h : (l.map f)[number l x]? = some row) : row = f x := by
  rw [List.getElem?_map, getElem?_number hx] at h
  exact (Option.some.inj h).symm

theorem eq_of_rowAt {l : List Nat} {f : Nat → α} (hx : x ∈ l) (hl : l.length < 2 ^ 63)
    (h : RowAt (l.map f) (position (number l x)) row) : row = f x := by
  obtain ⟨k, hk, hrow⟩ := h
  have hlt := number_lt hx
  rw [toInt_position (by omega)] at hk
  obtain rfl : number l x = k := by exact_mod_cast hk
  exact eq_of_getElem?_map hx hrow

theorem eq_of_refersTo {l : List Nat} {f : Nat → α} (hx : x ∈ l) (hl : l.length < 2 ^ 63)
    (h : RefersTo (l.map f) (position (number l x + 1)) row) : row = f x := by
  obtain ⟨k, hk, hrow⟩ := h
  have hlt := number_lt hx
  rw [toInt_position (by omega)] at hk
  obtain rfl : number l x = k := by omega
  exact eq_of_getElem?_map hx hrow

theorem isCode_memberRow {κ : ClassId → Nat} (k : Linkage.Member) :
    (memberRow κ k).IsCode ↔ k.hasCode = true := by
  cases k <;> simp +decide [memberRow, Image.Member.IsCode, Linkage.Member.hasCode,
    Linkage.Member.isField]

theorem kind_memberRow {κ : ClassId → Nat} (k : Linkage.Member) :
    (memberRow κ k).kind = fieldKind ↔ k.hasCode = false := by
  cases k <;> simp +decide [memberRow, Linkage.Member.hasCode, Linkage.Member.isField]

/-- A program that is all there, and its image, which is well formed and within limits. -/
structure Accepted (n : Numbering) (d : Declarations) (g : Graph) (code : Registry)
    (entry : MemberId) (runId : RunId) (N : Nat) : Prop where
  keys : (code.map (·.1)).Nodup
  complete : code.Complete d g entry
  covers : n.Covers d g code entry
  wellFormed : (n.image d g entry runId).normal.WellFormed
  bounded : (n.image d g entry runId).normal.Bounded N
  limit : N < 2 ^ 63

namespace Accepted

section
variable {n : Numbering} {d : Declarations} {g : Graph} {code : Registry} {entry m : MemberId}
  {runId : RunId} {N : Nat}

theorem classes_lt (h : n.Accepted d g code entry runId N) : n.classes.length < 2 ^ 63 := by
  have hle := (lengths_of_bounded h.bounded).1
  unfold Cbor.maxElements at hle
  omega

theorem members_lt (h : n.Accepted d g code entry runId N) : n.members.length < 2 ^ 63 := by
  have hle := (lengths_of_bounded h.bounded).2.1
  unfold Cbor.maxElements at hle
  omega

theorem blocks_lt (h : n.Accepted d g code entry runId N) : n.blocks.length < 2 ^ 63 := by
  have hle := (lengths_of_bounded h.bounded).2.2
  unfold Cbor.maxElements at hle
  omega

theorem isCode_eq (h : n.Accepted d g code entry runId N) (hm : code.ListsMember g entry m) :
    d.isCode m = (d.memberAt m).hasCode := by
  obtain ⟨k, hk⟩ := h.complete.members m hm
  simp [Declarations.isCode, hk, Declarations.memberAt_eq hk]

theorem isCode_of_rowAt (h : n.Accepted d g code entry runId N)
    (hm : code.ListsMember g entry m)
    (hrow : ∃ row, RowAt ((n.image d g entry runId).normal.members.getD [])
      (position (number n.members m)) row ∧ row.IsCode) : d.isCode m = true := by
  obtain ⟨row, hat, hcode⟩ := hrow
  rw [normal_image_members, List.map_map] at hat
  obtain rfl := eq_of_rowAt ((h.covers.members m).mpr hm) h.members_lt hat
  rw [h.isCode_eq hm]
  exact (isCode_memberRow _).mp hcode

theorem row_of_reference (h : n.Accepted d g code entry runId N)
    (hm : code.ListsMember g entry m)
    (hrow : RefersTo ((n.image d g entry runId).normal.members.getD [])
      (referenceRow (number n.members) (some m)) row) :
    row = memberRow (number n.classes) (d.memberAt m) := by
  rw [normal_image_members, List.map_map] at hrow
  exact eq_of_refersTo ((h.covers.members m).mpr hm) h.members_lt hrow

theorem isCode_of_reference (h : n.Accepted d g code entry runId N)
    (hm : code.ListsMember g entry m)
    (hrow : ∃ row, RefersTo ((n.image d g entry runId).normal.members.getD [])
      (referenceRow (number n.members) (some m)) row ∧ row.IsCode) : d.isCode m = true := by
  obtain ⟨row, hat, hcode⟩ := hrow
  obtain rfl := h.row_of_reference hm hat
  rw [h.isCode_eq hm]
  exact (isCode_memberRow _).mp hcode

theorem field_of_reference (h : n.Accepted d g code entry runId N)
    (hm : code.ListsMember g entry m)
    (hrow : ∃ row, RefersTo ((n.image d g entry runId).normal.members.getD [])
      (referenceRow (number n.members) (some m)) row ∧ row.kind = fieldKind) :
    d.isCode m = false := by
  obtain ⟨row, hat, hkind⟩ := hrow
  obtain rfl := h.row_of_reference hm hat
  rw [h.isCode_eq hm]
  exact (kind_memberRow _).mp hkind

theorem member (h : n.Accepted d g code entry runId N) {k : Linkage.Member}
    (hm : code.ListsMember g entry m) (hk : d.members[m]? = some k) :
    Short k.name ∧ ∀ t ∈ k.types, t.Portable := by
  have hmem : memberRow (number n.classes) k ∈
      (n.image d g entry runId).normal.members.getD [] := h.covers.memberRow_mem hm hk
  have hrow := h.wellFormed.members _ hmem
  have hbound := h.bounded.members.getD.2 _ hmem
  have hlimit := h.limit
  have hparams : ∀ t ∈ k.params, t.Portable := by
    intro t ht
    have hs : t.spelling (number n.classes) ∈ (memberRow (number n.classes) k).params.getD [] := by
      rw [params_memberRow]
      exact List.mem_map_of_mem ht
    exact portable_of_isType (hrow.params _ hs) (hbound.params.getD.2 _ hs) hlimit
  cases k with
  | field c name t =>
    have hkind : fieldKind ≠ ctorKind := by decide
    have htype := portable_of_isType (hrow.type hkind) hbound.type hlimit
    exact ⟨Nat.lt_of_le_of_lt hbound.name (by omega), by simpa [Linkage.Member.types] using htype⟩
  | method c name ps t =>
    have hkind : methodKind ≠ ctorKind := by decide
    have htype := portable_of_isType (hrow.type hkind) hbound.type hlimit
    refine ⟨Nat.lt_of_le_of_lt hbound.name (by omega), List.forall_mem_cons.mpr ⟨htype, hparams⟩⟩
  | ctor c ps => exact ⟨show Short "" by decide, hparams⟩

-- ---------------------------------------------------------------------------
-- Classes
-- ---------------------------------------------------------------------------

theorem classes (h : n.Accepted d g code entry runId N) (hc : code.ListsClass d g entry c) :
    (d.classAt c).name ≠ "" ∧ ¬ Relation.TransGen d.Extends c c := by
  obtain ⟨d', hd'⟩ := h.wellFormed.classes
  rw [normal_image_classes] at hd'
  exact (h.covers.withSupers h.complete h.classes_lt).of_decodeClasses hd' c
    ((h.covers.classes c).mpr hc)

-- ---------------------------------------------------------------------------
-- Instructions
-- ---------------------------------------------------------------------------

theorem operands (h : n.Accepted d g code entry runId N)
    (hconst : ∀ t value, i = .const t value → t = value.type)
    (hnames : ∀ m, i.Names g.calls m → code.ListsMember g entry m)
    (hrow : (instrRow (number n.classes) (number n.members) g.calls i).normal.WellFormed
      ((n.image d g entry runId).normal.classes.getD [])
      ((n.image d g entry runId).normal.members.getD []))
    (hbound : (instrRow (number n.classes) (number n.members) g.calls i).normal.Bounded N) :
    i.OperandsTyped d g.calls := by
  have hlimit := h.limit
  cases i with
  | const t value =>
    refine ⟨hconst t value rfl, fun bytes hvalue => ?_⟩
    subst hvalue
    exact Nat.lt_of_le_of_lt hbound.str.1 (by omega)
  | arith op t => exact Nat.lt_succ_of_le (hrow.arith rfl)
  | compare c t => exact Nat.lt_succ_of_le (hrow.cond (.inl rfl))
  | guard c t => exact Nat.lt_succ_of_le (hrow.cond (.inr rfl))
  | getField m => exact h.field_of_reference (hnames m .get) (hrow.field (.inl rfl))
  | putField m => exact h.field_of_reference (hnames m .put) (hrow.field (.inr rfl))
  | call site =>
    intro c hc m hm
    have hget : g.calls.getD site { callee := none } = c := by
      simp [Array.getD_eq_getD_getElem?, hc]
    rw [normal_instrRow] at hrow
    simp only [instrRow, hget] at hrow
    rcases List.mem_cons.mp hm with hcallee | htarget
    · refine h.isCode_of_reference (hnames m (.callee hc hcallee.symm)) ?_
      rw [hcallee]
      exact hrow.callee rfl
    · refine h.isCode_of_reference (hnames m (.target hc htarget)) (hrow.targets rfl _ ?_)
      simpa [callRow] using List.mem_map_of_mem (f := referenceRow (number n.members)) htarget
  | _ => trivial

theorem instruction (h : n.Accepted d g code entry runId N) (hconst : code.ConstantsTyped g)
    (hr : code.ListsBlock g r) (hb : g.blocks[r]? = some b) (hi : i ∈ b.code) :
    i.Typed d g.calls := by
  have hmem : (blockRow (number n.classes) (number n.members) (number n.blocks) g.calls b).normal ∈
      (n.image d g entry runId).normal.blocks.getD [] := h.covers.blockRow_mem hr hb
  have hrow := (h.wellFormed.blocks _ hmem).code _ (instrRow_mem hi)
  have hbound := (h.bounded.blocks.getD.2 _ hmem).code.getD.2 _ (instrRow_mem hi)
  have htype : (instrRow (number n.classes) (number n.members) g.calls i).normal.type =
      i.type.spelling (number n.classes) := type_instrRow g.calls i
  have hsize := htype ▸ hbound.type
  refine ⟨?_, h.operands ?_ (fun m hm => .named hr hb hi hm) hrow hbound⟩
  · rcases hrow.type with hnone | htyped
    · exact .inl (absent_of_spelling (htype ▸ hnone))
    · exact .inr (portable_of_isType (htype ▸ htyped) hsize h.limit)
  · rintro t value rfl
    exact hconst r b t value hr hb hi

/-- A program whose image is accepted is in order. -/
theorem typed (h : n.Accepted d g code entry runId N) (hconst : code.ConstantsTyped g) :
    code.Typed d g entry where
  main := h.isCode_of_rowAt .entry h.wellFormed.entry
  bodies body hbody := by
    obtain ⟨root, hroot⟩ := Option.isSome_iff_exists.mp (h.complete.rooted body hbody)
    have hfind : code.find body.1 = some (some root) :=
      hroot ▸ (find_eq_some_iff h.keys).mpr hbody
    have hmem : bodyRow (number n.members) (number n.blocks) (body.1, root) ∈
        (n.image d g entry runId).normal.bodies.getD [] := by
      have hmem := (h.covers.bodies _ _).mpr (Registry.body?_eq_some.mpr hfind)
      simpa [Image.normal, image] using ⟨body.1, root, hmem, rfl⟩
    exact h.isCode_of_rowAt (.body (by simp [hfind])) (h.wellFormed.bodies _ hmem).member
  classes c k hc hk := by
    have hbound := h.bounded.classes.getD.2 _ (h.covers.classRow_mem hc hk)
    have hlimit := h.limit
    rw [← Declarations.classAt_eq hk] at hbound ⊢
    exact ⟨(h.classes hc).1, Nat.lt_of_le_of_lt hbound (by omega)⟩
  acyclic c hc := (h.classes hc).2
  members m k hm hk := h.member hm hk
  blocks r b hr hb := by
    refine ⟨fun hnil => ?_, fun i hi => h.instruction hconst hr hb hi⟩
    have hne := (h.wellFormed.blocks _ (h.covers.blockRow_mem hr hb)).nonempty
    simp [blockRow, Image.Block.normal, hnil] at hne

end

end Accepted

end Numbering

end Linkage
