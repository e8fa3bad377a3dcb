import Linkage.Proofs.Portable
import Linkage.Proofs.Texts

/-!
# The rows of an image

What an image says of a class, a member, a block and an instruction once its classes, members and
blocks are numbered, and that each of these is read back as the same thing under its numbers.
-/

namespace Linkage

-- ---------------------------------------------------------------------------
-- Rows
-- ---------------------------------------------------------------------------

section
variable (κ : ClassId → Nat) (μ : MemberId → Nat) (β : BlockRef → Nat)

def Ty.spelling : Ty → String
  | .absent => ""
  | .primitive p => p.name
  | .object c => "@" ++ toString (κ c)
  | .array t => "[" ++ t.spelling

namespace Image

open Encoder (position nonempty)

def classRow (k : ClassDecl) : Class where
  name := k.name
  super := (k.super.map fun s => position (κ s + 1)).getD 0

def memberRow : Linkage.Member → Member
  | .field c name t =>
    { kind := fieldKind, owner := position (κ c), name, type := t.spelling κ }
  | .method c name ps t =>
    { kind := methodKind, owner := position (κ c), name, type := t.spelling κ
      params := nonempty (ps.map (Ty.spelling κ)) }
  | .ctor c ps =>
    { kind := ctorKind, owner := position (κ c), params := nonempty (ps.map (Ty.spelling κ)) }

def referenceRow (m : Option MemberId) : Int64 := (m.map fun m => position (μ m + 1)).getD 0

def callRow (c : Call) : Instr where
  op := Op.call
  member := referenceRow μ c.callee
  targets := nonempty (c.targetList.map (referenceRow μ))
  resolved := c.isResolved

def instrRow (calls : Array Call) : Instruction → Instr
  | .nop => { op := Op.nop }
  | .const t value => Encoder.constantEntry (t.spelling κ) value
  | .load slot t => { op := Op.load, slot, type := t.spelling κ }
  | .store slot t => { op := Op.store, slot, type := t.spelling κ }
  | .arith o t => { op := Op.arith, sub := o.code, type := t.spelling κ }
  | .neg t => { op := Op.neg, type := t.spelling κ }
  | .not => { op := Op.not }
  | .compare c t => { op := Op.compare, sub := c.code, type := t.spelling κ }
  | .dup t => { op := Op.dup, type := t.spelling κ }
  | .pop t => { op := Op.pop, type := t.spelling κ }
  | .new c => { op := Op.new, type := (Ty.object c).spelling κ }
  | .newArray t => { op := Op.newArray, type := t.spelling κ }
  | .arrayLoad t => { op := Op.arrayLoad, type := t.spelling κ }
  | .arrayStore t => { op := Op.arrayStore, type := t.spelling κ }
  | .getField m => { op := Op.getField, member := referenceRow μ (some m) }
  | .putField m => { op := Op.putField, member := referenceRow μ (some m) }
  | .ret t => { op := Op.ret, type := t.spelling κ }
  | .guard c t => { op := Op.guard, sub := c.code, type := t.spelling κ }
  | .call site => callRow μ (calls.getD site { callee := none })

def blockRow (calls : Array Call) (b : Linkage.Block) : Block where
  code := nonempty (b.code.map (instrRow κ μ calls))
  succs := some (b.succs.map fun succ => position ((succ.map β).getD 0))
  fixed := !b.mergeable

def bodyRow (body : MemberId × BlockRef) : Body where
  member := position (μ body.1)
  root := position (β body.2)

end Image

end

-- ---------------------------------------------------------------------------
-- Numbers and references
-- ---------------------------------------------------------------------------

namespace Image

open Encoder (position nonempty)

theorem ok_bind (a : α) (f : α → Except ε β) : (Except.ok a >>= f) = f a := rfl

theorem toInt_position (h : n < 2 ^ 63) : (position n).toInt = n := by
  rw [position, Int64.toInt_ofNat_of_lt h]

theorem index?_position (hn : n < size) (hs : size < 2 ^ 63) :
    index? size (position n) = some n := by
  have hint := toInt_position (n := n) (by omega)
  simp only [index?, hint]
  rw [if_pos (by omega), Int.toNat_natCast]

theorem reference?_position (hn : n < size) (hs : size < 2 ^ 63) :
    reference? size (position (n + 1)) = some n := by
  have hint := toInt_position (n := n + 1) (by omega)
  simp only [reference?, hint]
  rw [if_pos (by omega), Int.toNat_natCast, Nat.add_sub_cancel]

@[simp] theorem getD_nonempty (xs : List α) : (nonempty xs).getD [] = xs := by
  unfold nonempty
  split <;> simp_all

theorem getD_map (f : α → β) (xs : Option (List α)) :
    (xs.map (·.map f)).getD [] = (xs.getD []).map f := by
  cases xs <;> rfl

@[simp] theorem map_nonempty (f : α → β) (xs : List α) :
    (nonempty xs).map (·.map f) = nonempty (xs.map f) := by
  unfold nonempty
  simp only [List.isEmpty_map]
  split <;> rfl

-- ---------------------------------------------------------------------------
-- Types
-- ---------------------------------------------------------------------------

section
variable {κ : ClassId → Nat} {count : Nat}

theorem typeOfChars_named : ∀ p ∈ Primitive.named,
    typeOfChars count p.name.toList = .ok (.primitive p) := by
  simp [Primitive.named, Primitive.name, typeOfChars, Primitive.ofName?]

theorem rename_ne_absent {t : Ty} (h : t.isWellFormed) : t.rename κ ≠ .absent := by
  cases t with
  | absent => simp [Ty.isWellFormed] at h
  | _ => simp [Ty.rename]

theorem typeOfChars_spelling {t : Ty} (h : t.isWellFormed) (hκ : ∀ c ∈ t.class?, κ c < count)
    (hcount : count < 2 ^ 63) : typeOfChars count (t.spelling κ).toList = .ok (t.rename κ) := by
  induction t with
  | absent => simp [Ty.isWellFormed] at h
  | primitive p => exact typeOfChars_named p (by simpa [Ty.isWellFormed] using h)
  | object c =>
    have hc : κ c < count := hκ c rfl
    have hnum := Numeral.decimal?_toString (κ c) (by omega)
    have hrange : (0 : Int) ≤ κ c ∧ (κ c : Int) < count := by omega
    have hlist : ("@" ++ toString (κ c)).toList = '@' :: (toString (κ c)).toList := by
      simp [String.toList_append]
    rw [Ty.spelling, hlist, typeOfChars, hnum]
    simp only [if_pos hrange, Int.toNat_natCast, Ty.rename]
  | array t ih =>
    have hne := rename_ne_absent (κ := κ) (t := t) h
    simp [Ty.spelling, Ty.rename, typeOfChars, ih h hκ]

theorem typeOf_spelling {t : Ty} (h : t = .absent ∨ t.isWellFormed)
    (hκ : ∀ c ∈ t.class?, κ c < count) (hcount : count < 2 ^ 63) :
    typeOf count (t.spelling κ) = .ok (t.rename κ) := by
  rcases h with rfl | h
  · rfl
  · exact typeOfChars_spelling h hκ hcount

theorem paramsOf_spelling (i : Nat) {ps : List Ty} (h : ∀ t ∈ ps, t.isWellFormed)
    (hκ : ∀ t ∈ ps, ∀ c ∈ t.class?, κ c < count) (hcount : count < 2 ^ 63) :
    paramsOf count i (ps.map (Ty.spelling κ)) = .ok (ps.map (Ty.rename κ)) := by
  induction ps generalizing i with
  | nil => rfl
  | cons t ps ih =>
    have ht := typeOf_spelling (.inr (h t (by simp))) (hκ t (by simp)) hcount
    have hne := rename_ne_absent (κ := κ) (h t (by simp))
    have ih := ih (i + 1) (fun t ht => h t (by simp [ht])) fun t ht => hκ t (by simp [ht])
    rw [List.map_cons, paramsOf, ht, ok_bind]
    split
    · contradiction
    · rw [ih]
      rfl

theorem requiredType_spelling {t : Ty} (reason : Malformed) (h : t.isWellFormed)
    (hκ : ∀ c ∈ t.class?, κ c < count) (hcount : count < 2 ^ 63) :
    requiredType count reason (t.spelling κ) = .ok (t.rename κ) := by
  have hne := rename_ne_absent (κ := κ) h
  rw [requiredType, typeOf_spelling (.inr h) hκ hcount]
  split <;> simp_all

end

-- ---------------------------------------------------------------------------
-- Members
-- ---------------------------------------------------------------------------

section
variable {κ : ClassId → Nat} {count : Nat} {k : Linkage.Member}

@[simp] theorem normal_memberRow (k : Linkage.Member) :
    (memberRow κ k).normal = memberRow κ k := by
  cases k <;> simp [memberRow, Member.normal]
  rfl

theorem params_memberRow (k : Linkage.Member) :
    (memberRow κ k).params.getD [] = k.params.map (Ty.spelling κ) := by
  cases k <;> simp [memberRow, Linkage.Member.params]

theorem owner_memberRow (k : Linkage.Member) : (memberRow κ k).owner = position (κ k.owner) := by
  cases k <;> rfl

theorem params_subset_types (k : Linkage.Member) : k.params ⊆ k.types := by
  cases k <;> simp [Linkage.Member.params, Linkage.Member.types]

theorem decodeMember_row (i : Nat) (hk : k.Portable) (hκ : ∀ c, k.Mentions c → κ c < count)
    (hcount : count < 2 ^ 63) : decodeMember count i (memberRow κ k) = .ok (k.rename κ) := by
  have hwf : ∀ t ∈ k.types, t.isWellFormed := fun t ht => (hk.types t ht).1
  have hlt : ∀ t ∈ k.types, ∀ c ∈ t.class?, κ c < count :=
    fun t ht c hc => hκ c (.inr ⟨t, ht, hc⟩)
  have howner := index?_position (hκ k.owner (.inl rfl)) hcount
  have hparams := paramsOf_spelling 0 (fun t ht => hwf t (params_subset_types k ht))
    (fun t ht => hlt t (params_subset_types k ht)) hcount
  simp only [decodeMember, owner_memberRow, howner, params_memberRow, hparams, Decode.within,
    ok_bind]
  cases k with
  | field c name t =>
    have ht : t ∈ (Linkage.Member.field c name t).types := by simp [Linkage.Member.types]
    simp only [memberRow, requiredType_spelling _ (hwf t ht) (hlt t ht) hcount]
    rfl
  | method c name ps t =>
    have ht : t ∈ (Linkage.Member.method c name ps t).types := by simp [Linkage.Member.types]
    simp only [memberRow, requiredType_spelling _ (hwf t ht) (hlt t ht) hcount]
    rfl
  | ctor c ps => rfl

theorem decodeMembers_rows (d : Declarations) (i : Nat) (ks : List Linkage.Member)
    (hk : ∀ k ∈ ks, k.Portable) (hκ : ∀ k ∈ ks, ∀ c, k.Mentions c → κ c < d.classes.size)
    (hcount : d.classes.size < 2 ^ 63) :
    decodeMembers d i (ks.map (memberRow κ)) =
      .ok { d with members := d.members ++ (ks.map (Linkage.Member.rename κ)).toArray } := by
  induction ks generalizing d i with
  | nil => simp [decodeMembers]
  | cons k ks ih =>
    have hrow := decodeMember_row i (hk k (by simp)) (hκ k (by simp)) hcount
    have ih := ih (d.declare (k.rename κ)) (i + 1) (fun k h => hk k (by simp [h]))
      (fun k h => hκ k (by simp [h])) hcount
    rw [List.map_cons, decodeMembers, hrow, ok_bind, ih]
    simp [Declarations.declare]

end

-- ---------------------------------------------------------------------------
-- Instructions
-- ---------------------------------------------------------------------------

section
variable {d d' : Declarations} {κ : ClassId → Nat} {μ : MemberId → Nat}

/-- A number that a member can be found under, as a field or else as code. -/
def Stands (d d' : Declarations) (μ : MemberId → Nat) (m : MemberId) : Prop :=
  μ m < d'.members.size ∧ d'.isCode (μ m) = d.isCode m

theorem fieldReference_row (h : Stands d d' μ m) (hs : d'.members.size < 2 ^ 63)
    (hcode : d.isCode m = false) : fieldReference d' (referenceRow μ (some m)) = .ok (μ m) := by
  simp only [fieldReference, referenceRow, Option.map_some, Option.getD_some,
    reference?_position h.1 hs, h.2, hcode]
  rfl

theorem callReference_row (h : Stands d d' μ m) (hs : d'.members.size < 2 ^ 63)
    (hcode : d.isCode m = true) : callReference d' (referenceRow μ (some m)) = .ok (μ m) := by
  simp only [callReference, referenceRow, Option.map_some, Option.getD_some,
    reference?_position h.1 hs, h.2, hcode]
  rfl

theorem callReferences_rows (hs : d'.members.size < 2 ^ 63) {targets : List (Option MemberId)}
    (h : ∀ target ∈ targets, ∃ m, target = some m ∧ d.isCode m = true ∧ Stands d d' μ m) :
    ∃ ms, (targets.map (referenceRow μ)).mapM (callReference d') = .ok ms ∧
      ms.map some = targets.map (·.map μ) := by
  induction targets with
  | nil => exact ⟨[], rfl, rfl⟩
  | cons target targets ih =>
    obtain ⟨m, rfl, hcode, hm⟩ := h target (by simp)
    obtain ⟨ms, hms, hmap⟩ := ih fun t ht => h t (by simp [ht])
    refine ⟨μ m :: ms, ?_, by simp [hmap]⟩
    rw [List.map_cons, List.mapM_cons, callReference_row hm hs hcode, ok_bind, hms]
    rfl

theorem callOf_row (hs : d'.members.size < 2 ^ 63) {c : Call} (hc : c.Portable d)
    (h : ∀ m, c.callee = some m ∨ some m ∈ c.targetList → Stands d d' μ m) :
    callOf d' (callRow μ c) = .ok (c.rename μ) := by
  obtain ⟨m, hm, hcode⟩ := hc.callee
  have hcallee := callReference_row (h m (.inl hm)) hs hcode
  obtain ⟨ms, hms, hmap⟩ := callReferences_rows (μ := μ) hs fun target ht => by
    obtain ⟨n, rfl, hn⟩ := hc.targets target ht
    exact ⟨n, rfl, hn, h n (.inr ht)⟩
  simp only [callOf, callRow, hm, hcallee, ok_bind, getD_nonempty, Call.rename, Option.map_some]
  cases hts : c.targets with
  | none =>
    simp [Call.isResolved, Call.targetList, hts]
    rfl
  | some ts =>
    simp only [Call.targetList, hts, Option.getD_some] at hms hmap
    simp [Call.isResolved, Call.targetList, hts, hms, hmap]

theorem canonical_zero : Double.zero.canonical = .zero := by decide

theorem normal_callRow (c : Call) : (callRow μ c).normal = callRow μ c := by
  simp [callRow, Instr.normal, canonical_zero]

theorem normal_constantEntry (type : String) (value : Constant) :
    (Encoder.constantEntry type value).normal = Encoder.constantEntry type value.canonical := by
  cases value <;>
    simp [Encoder.constantEntry, Instr.normal, Constant.canonical, canonical_zero, nonempty]

/-- Only constants are not in normal form. -/
theorem normal_instrRow (calls : Array Call) (i : Instruction) :
    (instrRow κ μ calls i).normal =
      match i with
      | .const t value => Encoder.constantEntry (t.spelling κ) value.canonical
      | i => instrRow κ μ calls i := by
  cases i with
  | const t value => exact normal_constantEntry _ value
  | call site => exact normal_callRow _
  | _ => simp [instrRow, Instr.normal, canonical_zero, nonempty]

theorem type_instrRow (calls : Array Call) (i : Instruction) :
    (instrRow κ μ calls i).type = i.type.spelling κ := by
  cases i with
  | const t value => cases value <;> rfl
  | _ => rfl

theorem decodeInstr_plain (hc : d'.classes.size < 2 ^ 63) (hs : d'.members.size < 2 ^ 63)
    {calls : Array Call} {i : Instruction} (hsite : i.site? = none) (hi : i.Portable d calls)
    (hκ : ∀ c ∈ i.type.class?, κ c < d'.classes.size)
    (hμ : ∀ m, i.Names calls m → Stands d d' μ m) (calls' : Array Call) :
    decodeInstr d' calls' (instrRow κ μ calls i).normal = .ok (i.rename κ μ, calls') := by
  have htype := typeOf_spelling (κ := κ) (hi.type.imp id (·.1)) hκ hc
  have hops := hi.operands
  rw [decodeInstr, show (instrRow κ μ calls i).normal.type = _ from type_instrRow calls i, htype,
    ok_bind, normal_instrRow]
  cases i with
  | call site => simp [Instruction.site?] at hsite
  | const t value =>
    obtain ⟨rfl, -⟩ := hops
    cases value <;> rfl
  | arith op t =>
    have hop : arithOp (instrRow κ μ calls (.arith op t)) = .ok op := if_pos hops
    change (arithOp (instrRow κ μ calls (.arith op t)) >>=
      fun o => Except.ok (Instruction.arith o (t.rename κ), calls')) = _
    rw [hop, ok_bind, Instruction.rename]
  | compare c t =>
    have hcond : condOf (instrRow κ μ calls (.compare c t)) = .ok c := if_pos hops
    change (condOf (instrRow κ μ calls (.compare c t)) >>=
      fun c => Except.ok (Instruction.compare c (t.rename κ), calls')) = _
    rw [hcond, ok_bind, Instruction.rename]
  | guard c t =>
    have hcond : condOf (instrRow κ μ calls (.guard c t)) = .ok c := if_pos hops
    change (condOf (instrRow κ μ calls (.guard c t)) >>=
      fun c => Except.ok (Instruction.guard c (t.rename κ), calls')) = _
    rw [hcond, ok_bind, Instruction.rename]
  | getField m =>
    have hfield := fieldReference_row (hμ m .get) hs hops
    change (fieldReference d' (referenceRow μ (some m)) >>=
      fun m => Except.ok (Instruction.getField m, calls')) = _
    rw [hfield, ok_bind, Instruction.rename]
  | putField m =>
    have hfield := fieldReference_row (hμ m .put) hs hops
    change (fieldReference d' (referenceRow μ (some m)) >>=
      fun m => Except.ok (Instruction.putField m, calls')) = _
    rw [hfield, ok_bind, Instruction.rename]
  | _ => rfl

/-- A floating point constant is read from its row, whatever the program is otherwise. -/
theorem decodeInstr_float (d : Declarations) (calls : Array Call) (x : Double) :
    decodeInstr d calls (Encoder.constantEntry "float" (.float x)) =
      .ok (.const (.primitive .float) (.float x), calls) := by
  have htype : typeOf d.classes.size "float" = .ok (.primitive .float) :=
    typeOfChars_named .float (by simp [Primitive.named])
  rw [decodeInstr, show (Encoder.constantEntry "float" (.float x)).type = "float" from rfl, htype,
    ok_bind]
  rfl

/-- A call is read back with a call site of its own. -/
theorem decodeInstr_call (hs : d'.members.size < 2 ^ 63) {calls : Array Call} {site : CallRef}
    {c : Call} (hsite : calls[site]? = some c) (hc : c.Portable d)
    (hμ : ∀ m, (Instruction.call site).Names calls m → Stands d d' μ m) (calls' : Array Call) :
    decodeInstr d' calls' (instrRow κ μ calls (.call site)).normal =
      .ok (.call calls'.size, calls'.push (c.rename μ)) := by
  have hrow := callOf_row hs hc fun m hm => hμ m (hm.elim (.callee hsite) (.target hsite))
  have hget : calls.getD site { callee := none } = c := by
    simp [Array.getD_eq_getD_getElem?, hsite]
  rw [normal_instrRow]
  simp only [instrRow, hget]
  change (callOf d' (callRow μ c) >>=
    fun c => Except.ok (Instruction.call calls'.size, calls'.push c)) = _
  rw [hrow, ok_bind]

end

end Image

end Linkage
