import Linkage.Program.Cleanup
import Mathlib.Data.Set.Basic
import Mathlib.Logic.Relation

/-!
# What is in reach

The blocks and members in reach of an entry, said without any walk: along successors, and through
the calls that a block may run. A set of members is closed if the bodies of its members refer to
nothing outside it. What a cleanup finds is compared with these notions in the modules after this
one.
-/

namespace Linkage

-- ---------------------------------------------------------------------------
-- Blocks
-- ---------------------------------------------------------------------------

def Graph.DeadLeaf (g : Graph) (r : BlockRef) : Prop :=
  ∃ b, g.blocks[r]? = some b ∧ b.code = [.nop] ∧ b.succs = []

def Graph.Edge (g : Graph) (r q : BlockRef) : Prop :=
  ∃ b, g.blocks[r]? = some b ∧ some q ∈ b.succs

abbrev Graph.Reaches (g : Graph) : BlockRef → BlockRef → Prop := Relation.ReflTransGen g.Edge

theorem Block.isDeadLeaf_iff {b : Block} :
    b.isDeadLeaf = true ↔ b.code = [.nop] ∧ b.succs = [] := by
  simp [Block.isDeadLeaf, Block.isPlaceholder]

theorem Graph.deadLeaf_iff {g : Graph} {r : BlockRef} :
    (g.blocks[r]?).any Block.isDeadLeaf = true ↔ g.DeadLeaf r := by
  cases h : g.blocks[r]? with
  | none => simp [Graph.DeadLeaf, h]
  | some b => simp [Graph.DeadLeaf, h, Block.isDeadLeaf_iff]

theorem Graph.DeadLeaf.no_edge {g : Graph} (h : g.DeadLeaf r) : ¬ g.Edge r q := by
  obtain ⟨b, hb, -, hs⟩ := h
  rintro ⟨b', hb', hq⟩
  simp_all

-- ---------------------------------------------------------------------------
-- Members
-- ---------------------------------------------------------------------------

/-- The members that a resolved call may run: its targets or, if it has none, its static callee,
provided that this one is registered. -/
inductive Call.Runs (code : Registry) (c : Call) : MemberId → Prop
  | target {ts m} : c.targets = some ts → some m ∈ ts → Runs code c m
  | callee {m} : c.targets = some [] → c.callee = some m → (code.find m).isSome → Runs code c m

/-- The members that an instruction needs: a field, or what a call may run. -/
inductive Instruction.Refers (code : Registry) (calls : Array Call) : Instruction → MemberId → Prop
  | get : Refers code calls (.getField m) m
  | put : Refers code calls (.putField m) m
  | call {site c m} : calls[site]? = some c → c.Runs code m → Refers code calls (.call site) m

/-- A set of members that holds the entry and, with a member, all that the blocks of its body
refer to. -/
structure Registry.Closed (code : Registry) (g : Graph) (entry : MemberId) (S : Set MemberId) :
    Prop where
  entry : entry ∈ S
  refers : ∀ {m n root r} {b : Block} {i : Instruction}, m ∈ S → code.body? m = some root →
    g.Reaches root r → g.blocks[r]? = some b → i ∈ b.code → i.Refers code g.calls n → n ∈ S

/-- A block in reach of the entry, with a member in whose body it is met. -/
inductive Registry.Meets (code : Registry) (g : Graph) (entry : MemberId) :
    MemberId → BlockRef → Prop
  | entry : code.body? entry = some root → Meets code g entry entry root
  | succ : Meets code g entry m r → g.Edge r q → Meets code g entry m q
  | call {m r b site c n root} : Meets code g entry m r → g.blocks[r]? = some b →
      .call site ∈ b.code → g.calls[site]? = some c → c.Runs code n → code.body? n = some root →
      Meets code g entry n root

def Instruction.field? : Instruction → Option MemberId
  | .getField m | .putField m => some m
  | _ => none

/-- Bodies belong to methods and constructors: no field that an instruction names is registered. -/
def Registry.FieldFree (code : Registry) (g : Graph) : Prop :=
  ∀ b ∈ g.blocks, ∀ i ∈ b.code, ∀ m ∈ i.field?, code.find m = none

instance (code : Registry) (g : Graph) : Decidable (code.FieldFree g) :=
  inferInstanceAs (Decidable (∀ b ∈ g.blocks, ∀ i ∈ b.code, ∀ m ∈ i.field?, code.find m = none))

def Registry.Rooted (code : Registry) : Prop := ∀ entry ∈ code, entry.2.isSome

instance (code : Registry) : Decidable code.Rooted :=
  inferInstanceAs (Decidable (∀ entry ∈ code, entry.2.isSome))

section
variable {code : Registry} {g : Graph} {entry m : MemberId}

theorem Registry.body?_eq_some {root : BlockRef} :
    code.body? m = some root ↔ code.find m = some (some root) := by
  simp [Registry.body?, Option.join_eq_some_iff]

theorem Registry.mem_of_find {root : Option BlockRef} (h : code.find m = some root) :
    (m, root) ∈ code := by
  obtain ⟨front, back, rfl, -⟩ := List.lookup_eq_some_iff.mp h
  simp

theorem Registry.Rooted.find_ne (h : code.Rooted) : code.find m ≠ some none := by
  intro hm
  simpa using h _ (Registry.mem_of_find hm)

theorem Registry.Rooted.find_isSome (h : code.Rooted) :
    (code.find m).isSome = true ↔ ∃ root, code.body? m = some root := by
  constructor
  · intro hfind
    obtain ⟨root, hroot⟩ := Option.isSome_iff_exists.mp hfind
    cases root with
    | none => exact absurd hroot h.find_ne
    | some root => exact ⟨root, Registry.body?_eq_some.mpr hroot⟩
  · rintro ⟨root, hroot⟩
    rw [Registry.body?_eq_some.mp hroot, Option.isSome_some]

theorem Registry.Meets.body (h : code.Meets g entry m r) :
    ∃ root, code.body? m = some root ∧ g.Reaches root r := by
  induction h with
  | entry hroot => exact ⟨_, hroot, .refl⟩
  | succ _ hedge ih =>
    obtain ⟨root, hroot, hpath⟩ := ih
    exact ⟨root, hroot, hpath.tail hedge⟩
  | call _ _ _ _ _ hroot => exact ⟨_, hroot, .refl⟩

theorem Registry.Closed.mem_of_meets {S : Set MemberId} (hS : code.Closed g entry S)
    (h : code.Meets g entry m r) : m ∈ S := by
  induction h with
  | entry _ => exact hS.entry
  | succ _ _ ih => exact ih
  | call hm hb hi hc hrun _ ih =>
    obtain ⟨root, hroot, hpath⟩ := hm.body
    exact hS.refers ih hroot hpath hb hi (.call hc hrun)

theorem Registry.Closed.mem_of_refers {S : Set MemberId} (hS : code.Closed g entry S)
    {b : Block} {i : Instruction} (h : code.Meets g entry m r) (hb : g.blocks[r]? = some b)
    (hi : i ∈ b.code) (hn : i.Refers code g.calls n) : n ∈ S := by
  obtain ⟨root, hroot, hpath⟩ := h.body
  exact hS.refers (hS.mem_of_meets h) hroot hpath hb hi hn

end

-- ---------------------------------------------------------------------------
-- What may be wrong with a block
-- ---------------------------------------------------------------------------

/-- What may be wrong with a block in itself. For missing code the member is the target that has
none; for the other kinds it is left open, since the block may be met in several bodies. -/
inductive Block.Flaw (code : Registry) (calls : Array Call) (b : Block) :
    DefectKind → Option MemberId → Prop
  | empty : b.code = [] → Flaw code calls b .emptyBlock m
  | nilSuccessor : none ∈ b.succs → Flaw code calls b .nilSuccessor m
  | unresolved {site c m} : .call site ∈ b.code → calls[site]? = some c → c.targets = none →
      Flaw code calls b .unresolvedCall m
  | missing {site c ts target caller} : .call site ∈ b.code → calls[site]? = some c →
      c.targets = some ts → target ∈ ts → target.bind code.body? = none →
      Flaw code calls b (.missingCode caller) target

def Instruction.site? : Instruction → Option CallRef
  | .call site => some site
  | _ => none

structure Graph.InRange (g : Graph) (code : Registry) : Prop where
  succs : ∀ b ∈ g.blocks, ∀ q ∈ b.succs, ∀ r ∈ q, r < g.blocks.size
  calls : ∀ b ∈ g.blocks, ∀ i ∈ b.code, ∀ site ∈ i.site?, site < g.calls.size
  roots : ∀ entry ∈ code, ∀ root ∈ entry.2, root < g.blocks.size

instance (g : Graph) (code : Registry) : Decidable (g.InRange code) :=
  decidable_of_iff
    ((∀ b ∈ g.blocks, ∀ q ∈ b.succs, ∀ r ∈ q, r < g.blocks.size) ∧
      (∀ b ∈ g.blocks, ∀ i ∈ b.code, ∀ site ∈ i.site?, site < g.calls.size) ∧
      ∀ entry ∈ code, ∀ root ∈ entry.2, root < g.blocks.size)
    ⟨fun ⟨hs, hc, hr⟩ => ⟨hs, hc, hr⟩, fun ⟨hs, hc, hr⟩ => ⟨hs, hc, hr⟩⟩

theorem Graph.InRange.lt_of_meets {g : Graph} {code : Registry} (h : g.InRange code)
    (hm : code.Meets g entry m r) : r < g.blocks.size := by
  cases hm with
  | entry hroot => exact h.roots _ (Registry.mem_of_find (Registry.body?_eq_some.mp hroot)) _ rfl
  | succ _ hedge =>
    obtain ⟨b, hb, hq⟩ := hedge
    exact h.succs b (Array.mem_of_getElem? hb) _ hq _ rfl
  | call _ _ _ _ _ hroot =>
    exact h.roots _ (Registry.mem_of_find (Registry.body?_eq_some.mp hroot)) _ rfl

structure Graph.InRangeFrom (g : Graph) (code : Registry) (entry : MemberId) : Prop where
  blocks : ∀ {m r}, code.Meets g entry m r → r < g.blocks.size
  calls : ∀ {m r b site}, code.Meets g entry m r → g.blocks[r]? = some b → .call site ∈ b.code →
    site < g.calls.size

theorem Graph.InRange.from {g : Graph} {code : Registry} (h : g.InRange code) :
    g.InRangeFrom code entry where
  blocks := h.lt_of_meets
  calls _ hb hi := h.calls _ (Array.mem_of_getElem? hb) _ hi _ rfl

theorem Graph.DeadLeaf.no_flaw {g : Graph} {b : Block} {calls : Array Call} (h : g.DeadLeaf r)
    (hb : g.blocks[r]? = some b) : ¬ b.Flaw code calls kind m := by
  obtain ⟨b', hb', hcode, hsuccs⟩ := h
  obtain rfl : b' = b := by simpa [hb] using hb'.symm
  intro hf
  cases hf <;> simp_all

end Linkage
