import Linkage.Image.Decode
import Linkage.Proofs.ImageBytes
import Linkage.Proofs.Reach
import Mathlib.Data.Set.Card
import Mathlib.Tactic.MkIffOfInductiveProp

/-!
# Portable programs

What a program that is written as an image consists of, what has to hold of it to be read back, and
what it means for a program read back to be the same one under other numbers.
-/

namespace Linkage

-- ---------------------------------------------------------------------------
-- How many there are
-- ---------------------------------------------------------------------------

section
variable {l : List Nat} {P : Nat → Prop} {n k : Nat}

theorem length_le_of_encard (hl : l.Nodup) (hP : ∀ x ∈ l, P x)
    (h : {x | P x}.encard ≤ (n : ℕ∞)) : l.length ≤ n := by
  have hsub : (l.toFinset : Set Nat) ⊆ {x | P x} := fun x hx => hP x (by simpa using hx)
  have hle := (Set.encard_le_encard hsub).trans h
  rw [Set.encard_coe_eq_coe_finsetCard, List.toFinset_card_of_nodup hl] at hle
  exact_mod_cast hle

theorem encard_le_of_length (hP : ∀ x, P x → x ∈ l) (hl : l.length ≤ k) :
    {x | P x}.encard ≤ (k : ℕ∞) := by
  have hsub : {x | P x} ⊆ (l.toFinset : Set Nat) := fun x hx => by simpa using hP x hx
  refine (Set.encard_le_encard hsub).trans ?_
  rw [Set.encard_coe_eq_coe_finsetCard]
  exact_mod_cast l.toFinset_card_le.trans hl

theorem encard_le_of_lt (hP : ∀ x, P x → x < n) (hn : n ≤ k) : {x | P x}.encard ≤ (k : ℕ∞) :=
  encard_le_of_length (fun x hx => List.mem_range.mpr (hP x hx)) (List.length_range.trans_le hn)

end

theorem Declarations.lt_of_isCode {d : Declarations} (h : d.isCode m) : m < d.members.size := by
  by_contra hm
  simp [isCode, Array.getElem?_eq_none (Nat.le_of_not_lt hm)] at h

-- ---------------------------------------------------------------------------
-- What an image lists
-- ---------------------------------------------------------------------------

def Ty.class? : Ty → Option ClassId
  | .object c => some c
  | .array t => t.class?
  | .absent | .primitive _ => none

def Member.types : Member → List Ty
  | .field _ _ t => [t]
  | .method _ _ ps t => t :: ps
  | .ctor _ ps => ps

def Member.Mentions (k : Member) (c : ClassId) : Prop :=
  c = k.owner ∨ ∃ t ∈ k.types, t.class? = some c

def Instruction.type : Instruction → Ty
  | .const t _ | .load _ t | .store _ t | .arith _ t | .neg t | .compare _ t | .dup t | .pop t
  | .newArray t | .arrayLoad t | .arrayStore t | .ret t | .guard _ t => t
  | .new c => .object c
  | .nop | .not | .getField _ | .putField _ | .call _ => .absent

/-- The members that an instruction names, whatever they are there for. -/
inductive Instruction.Names (calls : Array Call) : Instruction → MemberId → Prop
  | get : Names calls (.getField m) m
  | put : Names calls (.putField m) m
  | callee {site c m} : calls[site]? = some c → c.callee = some m → Names calls (.call site) m
  | target {site c m} : calls[site]? = some c → some m ∈ c.targetList → Names calls (.call site) m

def Declarations.Extends (d : Declarations) (c super : ClassId) : Prop := d.superOf c = some super

namespace Registry

section
variable (d : Declarations) (g : Graph) (code : Registry) (entry : MemberId)

def ListsBlock (r : BlockRef) : Prop := ∃ m root, code.body? m = some root ∧ g.Reaches root r

/-- The entry, the members with bodies, and all members named in a body. -/
inductive ListsMember : MemberId → Prop
  | entry : ListsMember entry
  | body {m} : (code.find m).isSome → ListsMember m
  | named {r b i m} : code.ListsBlock g r → g.blocks[r]? = some b → i ∈ b.code →
      i.Names g.calls m → ListsMember m

/-- The classes in the signatures of these members and in their bodies, with all superclasses. -/
inductive ListsClass : ClassId → Prop
  | owner {m k} : ListsMember g code entry m → d.members[m]? = some k → ListsClass k.owner
  | signature {m k t c} : ListsMember g code entry m → d.members[m]? = some k → t ∈ k.types →
      t.class? = some c → ListsClass c
  | body {r b i c} : code.ListsBlock g r → g.blocks[r]? = some b → i ∈ b.code →
      i.type.class? = some c → ListsClass c
  | super {c s} : ListsClass c → d.Extends c s → ListsClass s

end

section
variable {d : Declarations} {g : Graph} {code : Registry} {entry m : MemberId}

theorem ListsBlock.reaches (hr : code.ListsBlock g r) (hpath : g.Reaches r q) :
    code.ListsBlock g q := by
  obtain ⟨m, root, hroot, htop⟩ := hr
  exact ⟨m, root, hroot, htop.trans hpath⟩

theorem ListsBlock.succ (hr : code.ListsBlock g r) (hb : g.blocks[r]? = some b)
    (hq : some q ∈ b.succs) : code.ListsBlock g q :=
  hr.reaches (.single ⟨b, hb, hq⟩)

theorem ListsMember.mentions {k : Member} (h : code.ListsMember g entry m)
    (hk : d.members[m]? = some k) (hc : k.Mentions c) : code.ListsClass d g entry c := by
  rcases hc with rfl | ⟨t, ht, hc⟩
  · exact .owner h hk
  · exact .signature h hk ht hc

theorem ListsClass.reaches (hc : code.ListsClass d g entry c)
    (hup : Relation.ReflTransGen d.Extends c s) : code.ListsClass d g entry s := by
  induction hup with
  | refl => exact hc
  | tail _ hstep ih => exact .super ih hstep

end

end Registry

-- ---------------------------------------------------------------------------
-- What can be written
-- ---------------------------------------------------------------------------

def Ty.depth : Ty → Nat
  | .array t => t.depth + 1
  | _ => 0

/-- A type that is there throughout, of primitives that have names. -/
def Ty.isWellFormed : Ty → Bool
  | .absent => false
  | .primitive p => Primitive.named.contains p
  | .object _ => true
  | .array t => t.isWellFormed

/-- No text in memory is longer than 2^63 bytes, and so no type is as deep. -/
def Ty.Portable (t : Ty) : Prop := t.isWellFormed ∧ t.depth < 2 ^ 63

def ClassDecl.Portable (k : ClassDecl) : Prop := k.name ≠ "" ∧ Image.Short k.name

def Member.name : Member → String
  | .field _ name _ | .method _ name _ _ => name
  | .ctor .. => ""

@[mk_iff]
structure Member.Portable (k : Member) : Prop where
  name : Image.Short k.name
  types : ∀ t ∈ k.types, t.Portable
  params : k.params.length ≤ Cbor.maxElements

def Constant.Portable : Constant → Prop
  | .string bytes => Utf8.isValid bytes = true ∧ bytes.length < 2 ^ 64
  | _ => True

@[mk_iff]
structure Call.Portable (d : Declarations) (c : Call) : Prop where
  callee : ∃ m, c.callee = some m ∧ d.isCode m
  targets : ∀ target ∈ c.targetList, ∃ m, target = some m ∧ d.isCode m
  limit : c.targetList.length ≤ Cbor.maxElements

/-- What an instruction has to satisfy apart from its type. -/
def Instruction.OperandsPortable (d : Declarations) (calls : Array Call) : Instruction → Prop
  | .const t value => t = value.type ∧ value.Portable
  | .arith op _ => op.code.toNat < ArithOp.names.length
  | .compare c _ | .guard c _ => c.code.toNat < Cond.names.length
  | .getField m | .putField m => d.isCode m = false
  | .call site => ∃ c, calls[site]? = some c ∧ c.Portable d
  | _ => True

@[mk_iff]
structure Instruction.Portable (d : Declarations) (calls : Array Call) (i : Instruction) :
    Prop where
  type : i.type = .absent ∨ i.type.Portable
  operands : i.OperandsPortable d calls

@[mk_iff]
structure Block.Portable (d : Declarations) (calls : Array Call) (b : Block) : Prop where
  nonempty : b.code ≠ []
  succs : none ∉ b.succs
  code : ∀ i ∈ b.code, i.Portable d calls
  codeLimit : b.code.length ≤ Cbor.maxElements
  succsLimit : b.succs.length ≤ Cbor.maxElements

/-- A program that can be written as an image and read back. Only what the image lists counts. -/
structure Registry.Portable (d : Declarations) (g : Graph) (code : Registry) (entry : MemberId) :
    Prop where
  keys : (code.map (·.1)).Nodup
  rooted : code.Rooted
  main : d.isCode entry
  bodies : ∀ body ∈ code, d.isCode body.1
  classes : ∀ c, code.ListsClass d g entry c → ∃ k, d.classes[c]? = some k ∧ k.Portable
  acyclic : ∀ c, code.ListsClass d g entry c → ¬ Relation.TransGen d.Extends c c
  members : ∀ m, code.ListsMember g entry m → ∃ k, d.members[m]? = some k ∧ k.Portable
  blocks : ∀ r, code.ListsBlock g r → ∃ b, g.blocks[r]? = some b ∧ b.Portable d g.calls
  classLimit : {c | code.ListsClass d g entry c}.encard ≤ Cbor.maxElements
  memberLimit : {m | code.ListsMember g entry m}.encard ≤ Cbor.maxElements
  blockLimit : {r | code.ListsBlock g r}.encard ≤ Cbor.maxElements

-- ---------------------------------------------------------------------------
-- What is there to be written
-- ---------------------------------------------------------------------------

def Instruction.Complete (calls : Array Call) : Instruction → Prop
  | .call site => ∃ c, calls[site]? = some c ∧ none ∉ c.callee :: c.targetList
  | _ => True

structure Block.Complete (calls : Array Call) (b : Block) : Prop where
  succs : none ∉ b.succs
  code : ∀ i ∈ b.code, i.Complete calls

/-- Everything that the image lists is there. -/
structure Registry.Complete (d : Declarations) (g : Graph) (code : Registry) (entry : MemberId) :
    Prop where
  rooted : code.Rooted
  classes : ∀ c, code.ListsClass d g entry c → ∃ k, d.classes[c]? = some k
  members : ∀ m, code.ListsMember g entry m → ∃ k, d.members[m]? = some k
  blocks : ∀ r, code.ListsBlock g r → ∃ b, g.blocks[r]? = some b ∧ b.Complete g.calls

section
variable {d : Declarations} {g : Graph} {code : Registry} {entry : MemberId}

theorem Instruction.Portable.complete {calls : Array Call} {i : Instruction}
    (h : i.Portable d calls) : i.Complete calls := by
  cases i with
  | call site =>
    obtain ⟨c, hc, hport⟩ := h.operands
    refine ⟨c, hc, fun hnone => ?_⟩
    rcases List.mem_cons.mp hnone with hnone | hnone
    · obtain ⟨m, hm, -⟩ := hport.callee
      cases hnone.trans hm
    · obtain ⟨m, hm, -⟩ := hport.targets none hnone
      cases hm
  | _ => trivial

theorem Registry.Portable.complete (h : code.Portable d g entry) : code.Complete d g entry where
  rooted := h.rooted
  classes c hc := (h.classes c hc).imp fun _ hk => hk.1
  members m hm := (h.members m hm).imp fun _ hk => hk.1
  blocks r hr := by
    obtain ⟨b, hb, hport⟩ := h.blocks r hr
    exact ⟨b, hb, hport.succs, fun i hi => (hport.code i hi).complete⟩

theorem Registry.Portable.block_lt (h : code.Portable d g entry) (hr : code.ListsBlock g r) :
    r < g.blocks.size := by
  obtain ⟨b, hb, -⟩ := h.blocks r hr
  exact (Array.getElem?_eq_some_iff.mp hb).1

end

-- ---------------------------------------------------------------------------
-- Checking a whole store
-- ---------------------------------------------------------------------------

instance (t : Ty) : Decidable t.Portable :=
  inferInstanceAs (Decidable (t.isWellFormed = true ∧ t.depth < 2 ^ 63))

instance (k : ClassDecl) : Decidable k.Portable :=
  inferInstanceAs (Decidable (k.name ≠ "" ∧ Image.Short k.name))

instance (k : Member) : Decidable k.Portable :=
  decidable_of_iff' _ (Member.portable_iff k)

instance : (value : Constant) → Decidable value.Portable
  | .string bytes => inferInstanceAs (Decidable (Utf8.isValid bytes = true ∧ bytes.length < 2 ^ 64))
  | .nil | .int _ | .float _ | .bool _ => isTrue trivial

instance (d : Declarations) (c : Call) : Decidable (c.Portable d) :=
  decidable_of_iff ((∃ m ∈ c.callee, d.isCode m) ∧
      (∀ target ∈ c.targetList, ∃ m ∈ target, d.isCode m) ∧
      c.targetList.length ≤ Cbor.maxElements)
    (Call.portable_iff d c).symm

instance (d : Declarations) (calls : Array Call) :
    (i : Instruction) → Decidable (i.OperandsPortable d calls)
  | .const t value => inferInstanceAs (Decidable (t = value.type ∧ value.Portable))
  | .arith op _ => inferInstanceAs (Decidable (op.code.toNat < ArithOp.names.length))
  | .compare c _ | .guard c _ => inferInstanceAs (Decidable (c.code.toNat < Cond.names.length))
  | .getField m | .putField m => inferInstanceAs (Decidable (d.isCode m = false))
  | .call site => inferInstanceAs (Decidable (∃ c ∈ calls[site]?, c.Portable d))
  | .nop | .load .. | .store .. | .neg _ | .not | .dup _ | .pop _ | .new _ | .newArray _
  | .arrayLoad _ | .arrayStore _ | .ret _ => isTrue trivial

instance (d : Declarations) (calls : Array Call) (i : Instruction) :
    Decidable (i.Portable d calls) :=
  decidable_of_iff' _ (Instruction.portable_iff d calls i)

instance (d : Declarations) (calls : Array Call) (b : Block) : Decidable (b.Portable d calls) :=
  decidable_of_iff' _ (Block.portable_iff d calls b)

def Instruction.names (calls : Array Call) : Instruction → List MemberId
  | .getField m | .putField m => [m]
  | .call site => ((calls[site]?).map fun c => (c.callee :: c.targetList).filterMap id).getD []
  | _ => []

theorem Instruction.Names.mem_names (h : Names calls i m) : m ∈ i.names calls := by
  cases h with
  | get => simp [names]
  | put => simp [names]
  | callee hc hm => simp [names, hc, hm]
  | target hc hm => simp [names, hc, hm]

/-- The entry, the bodies and everything in the store refer only to what is there. -/
structure Registry.StoreClosed (d : Declarations) (g : Graph) (code : Registry)
    (entry : MemberId) : Prop where
  main : d.isCode entry
  bodies : ∀ body ∈ code, d.isCode body.1
  roots : ∀ body ∈ code, ∀ r ∈ body.2, r < g.blocks.size
  supers : ∀ c s, d.Extends c s → s < d.classes.size
  owners : ∀ k ∈ d.members, k.owner < d.classes.size
  types : ∀ k ∈ d.members, ∀ t ∈ k.types, ∀ c ∈ t.class?, c < d.classes.size
  succs : ∀ b ∈ g.blocks, ∀ succ ∈ b.succs, ∀ r ∈ succ, r < g.blocks.size
  operands : ∀ b ∈ g.blocks, ∀ i ∈ b.code, ∀ c ∈ i.type.class?, c < d.classes.size
  names : ∀ b ∈ g.blocks, ∀ i ∈ b.code, ∀ m ∈ i.names g.calls, m < d.members.size

namespace Registry.StoreClosed

section
variable {d : Declarations} {g : Graph} {code : Registry} {entry : MemberId}

theorem block_lt (h : code.StoreClosed d g entry) (hr : code.ListsBlock g r) :
    r < g.blocks.size := by
  obtain ⟨m, root, hroot, hpath⟩ := hr
  induction hpath with
  | refl => exact h.roots _ (mem_of_find (body?_eq_some.mp hroot)) _ rfl
  | tail _ hedge _ =>
    obtain ⟨b, hb, hsucc⟩ := hedge
    exact h.succs b (Array.mem_of_getElem? hb) _ hsucc _ rfl

theorem member_lt (h : code.StoreClosed d g entry) (hm : code.ListsMember g entry m) :
    m < d.members.size := by
  cases hm with
  | entry => exact Declarations.lt_of_isCode h.main
  | body hfind =>
    obtain ⟨root, hroot⟩ := Option.isSome_iff_exists.mp hfind
    exact Declarations.lt_of_isCode (h.bodies _ (mem_of_find hroot))
  | named _ hb hi hname => exact h.names _ (Array.mem_of_getElem? hb) _ hi _ hname.mem_names

theorem class_lt (h : code.StoreClosed d g entry) (hc : code.ListsClass d g entry c) :
    c < d.classes.size := by
  cases hc with
  | owner _ hk => exact h.owners _ (Array.mem_of_getElem? hk)
  | signature _ hk ht hc => exact h.types _ (Array.mem_of_getElem? hk) _ ht _ hc
  | body _ hb hi hc => exact h.operands _ (Array.mem_of_getElem? hb) _ hi _ hc
  | super _ hs => exact h.supers _ _ hs

theorem portable (h : code.StoreClosed d g entry) (hkeys : (code.map (·.1)).Nodup)
    (hrooted : code.Rooted) (hacyclic : ∀ c, ¬ Relation.TransGen d.Extends c c)
    (hclasses : d.classes.size ≤ Cbor.maxElements ∧ ∀ k ∈ d.classes, k.Portable)
    (hmembers : d.members.size ≤ Cbor.maxElements ∧ ∀ k ∈ d.members, k.Portable)
    (hblocks : g.blocks.size ≤ Cbor.maxElements ∧ ∀ b ∈ g.blocks, b.Portable d g.calls) :
    code.Portable d g entry where
  keys := hkeys
  rooted := hrooted
  main := h.main
  bodies := h.bodies
  classes _ hc := ⟨_, Array.getElem?_eq_getElem (h.class_lt hc), hclasses.2 _ (Array.getElem_mem _)⟩
  acyclic c _ := hacyclic c
  members _ hm :=
    ⟨_, Array.getElem?_eq_getElem (h.member_lt hm), hmembers.2 _ (Array.getElem_mem _)⟩
  blocks _ hr := ⟨_, Array.getElem?_eq_getElem (h.block_lt hr), hblocks.2 _ (Array.getElem_mem _)⟩
  classLimit := encard_le_of_lt (fun _ => h.class_lt) hclasses.1
  memberLimit := encard_le_of_lt (fun _ => h.member_lt) hmembers.1
  blockLimit := encard_le_of_lt (fun _ => h.block_lt) hblocks.1

end

end Registry.StoreClosed

/-- Everything in the store can be written and refers only to what is there, and every class comes
after its superclass. That can be checked without looking for what is in reach. -/
structure Registry.StorePortable (d : Declarations) (g : Graph) (code : Registry)
    (entry : MemberId) : Prop where
  keys : (code.map (·.1)).Nodup
  rooted : code.Rooted
  main : d.isCode entry
  bodies : ∀ body ∈ code, d.isCode body.1
  roots : ∀ body ∈ code, ∀ r ∈ body.2, r < g.blocks.size
  classes : ∀ k ∈ d.classes, k.Portable
  supers : ∀ c < d.classes.size, ∀ s ∈ d.superOf c, s < c
  members : ∀ k ∈ d.members, k.Portable
  owners : ∀ k ∈ d.members, k.owner < d.classes.size
  types : ∀ k ∈ d.members, ∀ t ∈ k.types, ∀ c ∈ t.class?, c < d.classes.size
  blocks : ∀ b ∈ g.blocks, b.Portable d g.calls
  succs : ∀ b ∈ g.blocks, ∀ succ ∈ b.succs, ∀ r ∈ succ, r < g.blocks.size
  operands : ∀ b ∈ g.blocks, ∀ i ∈ b.code, ∀ c ∈ i.type.class?, c < d.classes.size
  names : ∀ b ∈ g.blocks, ∀ i ∈ b.code, ∀ m ∈ i.names g.calls, m < d.members.size
  classLimit : d.classes.size ≤ Cbor.maxElements
  memberLimit : d.members.size ≤ Cbor.maxElements
  blockLimit : g.blocks.size ≤ Cbor.maxElements

namespace Registry.StorePortable

section
variable {d : Declarations} {g : Graph} {code : Registry} {entry : MemberId}

theorem extends_lt (h : code.StorePortable d g entry) (hs : d.Extends c s) :
    s < c ∧ c < d.classes.size := by
  have hc : c < d.classes.size := by
    by_contra hc
    simp [Declarations.Extends, Declarations.superOf,
      Array.getElem?_eq_none (Nat.le_of_not_lt hc)] at hs
  exact ⟨h.supers c hc s hs, hc⟩

theorem acyclic (h : code.StorePortable d g entry) (c : ClassId) :
    ¬ Relation.TransGen d.Extends c c := by
  have hdown : ∀ s, Relation.TransGen d.Extends c s → s < c := by
    intro s hs
    induction hs with
    | single hs => exact (h.extends_lt hs).1
    | tail _ hs ih => exact (h.extends_lt hs).1.trans ih
  exact fun hcycle => Nat.lt_irrefl c (hdown c hcycle)

theorem closed (h : code.StorePortable d g entry) : code.StoreClosed d g entry where
  main := h.main
  bodies := h.bodies
  roots := h.roots
  supers _ _ hs := (h.extends_lt hs).1.trans (h.extends_lt hs).2
  owners := h.owners
  types := h.types
  succs := h.succs
  operands := h.operands
  names := h.names

theorem portable (h : code.StorePortable d g entry) : code.Portable d g entry :=
  h.closed.portable h.keys h.rooted h.acyclic ⟨h.classLimit, h.classes⟩
    ⟨h.memberLimit, h.members⟩ ⟨h.blockLimit, h.blocks⟩

end

end Registry.StorePortable

-- ---------------------------------------------------------------------------
-- The same program under other numbers
-- ---------------------------------------------------------------------------

section
variable (κ : ClassId → ClassId) (μ : MemberId → MemberId) (β : BlockRef → BlockRef)

def Ty.rename : Ty → Ty
  | .absent => .absent
  | .primitive p => .primitive p
  | .object c => .object (κ c)
  | .array t => .array (t.rename)

def Member.rename : Member → Member
  | .field c name t => .field (κ c) name (t.rename κ)
  | .method c name ps t => .method (κ c) name (ps.map (Ty.rename κ)) (t.rename κ)
  | .ctor c ps => .ctor (κ c) (ps.map (Ty.rename κ))

/-- The same constant; of floating point numbers only the number counts. -/
def Constant.canonical : Constant → Constant
  | .float x => .float x.canonical
  | value => value

def Call.rename (c : Call) : Call where
  callee := c.callee.map μ
  targets := c.targets.map (·.map (·.map μ))

/-- The same instruction. Calls are compared through their call sites. -/
def Instruction.rename : Instruction → Instruction
  | .nop => .nop
  | .const t value => .const (t.rename κ) value.canonical
  | .load slot t => .load slot (t.rename κ)
  | .store slot t => .store slot (t.rename κ)
  | .arith op t => .arith op (t.rename κ)
  | .neg t => .neg (t.rename κ)
  | .not => .not
  | .compare c t => .compare c (t.rename κ)
  | .dup t => .dup (t.rename κ)
  | .pop t => .pop (t.rename κ)
  | .new c => .new (κ c)
  | .newArray t => .newArray (t.rename κ)
  | .arrayLoad t => .arrayLoad (t.rename κ)
  | .arrayStore t => .arrayStore (t.rename κ)
  | .getField m => .getField (μ m)
  | .putField m => .putField (μ m)
  | .ret t => .ret (t.rename κ)
  | .guard c t => .guard c (t.rename κ)
  | .call site => .call site

inductive Instruction.Matches (calls calls' : Array Call) : Instruction → Instruction → Prop
  | plain {i} : i.site? = none → Matches calls calls' i (i.rename κ μ)
  | call {site site' c} : calls[site]? = some c → calls'[site']? = some (c.rename μ) →
      Matches calls calls' (.call site) (.call site')

structure Block.Matches (calls calls' : Array Call) (b b' : Block) : Prop where
  code : List.Forall₂ (Instruction.Matches κ μ calls calls') b.code b'.code
  succs : b'.succs = b.succs.map (·.map β)
  mergeable : b'.mergeable = b.mergeable

/-- A program read from an image is the one that was written: its classes, members and blocks are
those that were listed, under new numbers. -/
structure LinkUnit.Restores (d : Declarations) (g : Graph) (code : Registry) (entry : MemberId)
    (u : LinkUnit) : Prop where
  classNumbers : Set.BijOn κ {c | code.ListsClass d g entry c} {c | c < u.declarations.classes.size}
  memberNumbers : Set.BijOn μ {m | code.ListsMember g entry m} {m | m < u.declarations.members.size}
  blockNumbers : Set.BijOn β {r | code.ListsBlock g r} {r | r < u.graph.blocks.size}
  main : u.entry = μ entry
  registry : ∀ m' root', u.code.find m' = some root' ↔
    ∃ m root, code.find m = some root ∧ μ m = m' ∧ root.map β = root'
  classes : ∀ c k, code.ListsClass d g entry c → d.classes[c]? = some k →
    u.declarations.classes[κ c]? = some ⟨k.name, k.super.map κ⟩
  members : ∀ m k, code.ListsMember g entry m → d.members[m]? = some k →
    u.declarations.members[μ m]? = some (k.rename κ)
  blocks : ∀ r b, code.ListsBlock g r → g.blocks[r]? = some b →
    ∃ b', u.graph.blocks[β r]? = some b' ∧ b.Matches κ μ β g.calls u.graph.calls b'

end

end Linkage
