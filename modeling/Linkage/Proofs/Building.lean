import Linkage.Proofs.Cleanup
import Mathlib.Logic.Function.Iterate

/-!
# Building

What holds of blocks that were made by building operations alone, in any order and number. They have
the identities from zero on in the order of their creation, each holds an instruction, and none of
their successors is missing. A block that is not mergeable any more keeps its instructions but for
those that are dropped from it, and an operation that lacks a block changes nothing.
-/

namespace Linkage

-- ---------------------------------------------------------------------------
-- Operations
-- ---------------------------------------------------------------------------

/-- A building operation with the blocks it is given, any of which may be missing. -/
inductive Operation where
  | terminal (i : Instruction)
  | branch (cond : Cond) (type : Ty) (yes no : Option BlockRef)
  | pivot
  | plain (code : List Instruction) (succs : List (Option BlockRef))
  | sequence (next : Option BlockRef) (code : List Instruction)
  | prefixedBy (block : Option BlockRef) (i : Instruction)
  | linkTo (block succ : Option BlockRef)
  | doNotMerge (block : Option BlockRef)
  | removeFirst (block : Option BlockRef)
  deriving DecidableEq

namespace Operation

def blocks : Operation → List (Option BlockRef)
  | .terminal _ | .pivot => []
  | .branch _ _ yes no => [yes, no]
  | .plain _ succs => succs
  | .sequence block _ | .prefixedBy block _ | .doNotMerge block | .removeFirst block => [block]
  | .linkTo block succ => [block, succ]

/-- The fault of an operation that lacks a block. Putting nothing in front needs no block, and a
link looks at its end first. -/
def fault? : Operation → Option Fault
  | .branch _ _ yes no => if yes.isNone || no.isNone then some .branchToNothing else none
  | .plain _ succs => if succs.contains none then some .plainToNothing else none
  | .linkTo _ none => some .linkToNothing
  | .linkTo none (some _) | .sequence none (_ :: _) | .prefixedBy none _ | .doNotMerge none
  | .removeFirst none => some .absent
  | _ => none

def link? (r : BlockRef) : Operation → Option (Option BlockRef)
  | .linkTo (some q) (some succ) => if q = r then some (some succ) else none
  | _ => none

end Operation

namespace Graph

def apply (g : Graph) : Operation → Except Fault (Option BlockRef) × Graph
  | .terminal i => (.ok (g.terminal i).1, (g.terminal i).2)
  | .branch cond type yes no => block (g.branch cond type yes no)
  | .pivot => (.ok g.pivot.1, g.pivot.2)
  | .plain code succs => block (g.plain code succs)
  | .sequence none [] => (.ok none, g)
  | .sequence (some r) code => block (g.sequence r code)
  | .prefixedBy (some r) i => block (g.prefixedBy r i)
  | .linkTo _ none => (.error .linkToNothing, g)
  | .linkTo (some r) succ => block (g.linkTo r succ)
  | .doNotMerge (some r) => block (g.doNotMerge r)
  | .removeFirst (some r) => block (g.removeFirst r)
  | .sequence none (_ :: _) | .prefixedBy none _ | .linkTo none (some _) | .doNotMerge none
  | .removeFirst none => (.error .absent, g)
where
  block (x : Except Fault BlockRef × Graph) : Except Fault (Option BlockRef) × Graph :=
    (x.1.map some, x.2)

def applyAll (g : Graph) : List Operation → Graph
  | [] => g
  | op :: ops => (g.apply op).2.applyAll ops

def Offers (g : Graph) (op : Operation) : Prop := ∀ q ∈ op.blocks, ∀ r ∈ q, r < g.blocks.size

def OffersAll (g : Graph) : List Operation → Prop
  | [] => True
  | op :: ops => g.Offers op ∧ (g.apply op).2.OffersAll ops

instance (g : Graph) (op : Operation) : Decidable (g.Offers op) :=
  inferInstanceAs (Decidable (∀ q ∈ op.blocks, ∀ r ∈ q, r < g.blocks.size))

instance instDecidableOffersAll (g : Graph) : (ops : List Operation) → Decidable (g.OffersAll ops)
  | [] => .isTrue trivial
  | op :: ops => @instDecidableAnd _ _ _ (instDecidableOffersAll (g.apply op).2 ops)

section
variable {g : Graph} {ops later : List Operation}

theorem applyAll_append : g.applyAll (ops ++ later) = (g.applyAll ops).applyAll later := by
  induction ops generalizing g with
  | nil => rfl
  | cons op ops ih => exact ih

theorem offersAll_append :
    g.OffersAll (ops ++ later) ↔ g.OffersAll ops ∧ (g.applyAll ops).OffersAll later := by
  induction ops generalizing g with
  | nil => simp [OffersAll, applyAll]
  | cons op ops ih => simp [OffersAll, applyAll, ih, and_assoc]

end

-- ---------------------------------------------------------------------------
-- What every operation keeps
-- ---------------------------------------------------------------------------

/-- What holds of every block that was made by building operations. -/
structure WellBuiltBlock (count : Nat) (r : BlockRef) (b : Block) : Prop where
  id : b.id = r
  built : b.built = true
  code : b.code ≠ []
  succs : ∀ q ∈ b.succs, ∃ s, q = some s ∧ s < count

structure WellBuilt (g : Graph) : Prop where
  issued : g.issued = g.blocks.size
  block : ∀ r b, g.blocks[r]? = some b → WellBuiltBlock g.blocks.size r b

def dropFirst (code : List Instruction) : List Instruction := orPlaceholder (code.drop 1)

end Graph

/-- What becomes of a block from which so many instructions are dropped, and to which successors are
linked. -/
structure Block.Becomes (drops : Nat) (links : List (Option BlockRef)) (b b' : Block) : Prop where
  id : b'.id = b.id
  succs : b'.succs = b.succs ++ links
  fixed : b.mergeable = false → b'.mergeable = false ∧ b'.code = Graph.dropFirst^[drops] b.code

theorem Block.Becomes.refl (b : Block) : b.Becomes 0 [] b := ⟨rfl, by simp, fun h => ⟨h, rfl⟩⟩

theorem Block.Becomes.trans {b b' b'' : Block} (h : b.Becomes n links b')
    (h' : b'.Becomes n' links' b'') : b.Becomes (n + n') (links ++ links') b'' where
  id := h'.id.trans h.id
  succs := by rw [h'.succs, h.succs, List.append_assoc]
  fixed hb := by
    obtain ⟨hfixed, hcode⟩ := h.fixed hb
    obtain ⟨hfixed', hcode'⟩ := h'.fixed hfixed
    refine ⟨hfixed', ?_⟩
    rw [hcode', hcode, Nat.add_comm, Function.iterate_add_apply]

namespace Graph

def Evolves (g : Graph) (ops : List Operation) (g' : Graph) : Prop :=
  ∀ (r : BlockRef) (b : Block), g.blocks[r]? = some b → ∃ b', g'.blocks[r]? = some b' ∧
    b.Becomes (ops.count (.removeFirst (some r))) (ops.filterMap (Operation.link? r)) b'

section
variable {g g' g'' : Graph} {op : Operation} {ops ops' : List Operation} {r : BlockRef}
  {b b' : Block} {i : Instruction} {code : List Instruction} {succs : List (Option BlockRef)}
  {mergeable : Bool}

theorem Evolves.refl (g : Graph) : g.Evolves [] g := fun _ b hb => ⟨b, hb, .refl b⟩

theorem Evolves.trans (h : g.Evolves ops g') (h' : g'.Evolves ops' g'') :
    g.Evolves (ops ++ ops') g'' := by
  intro r b hb
  obtain ⟨b', hb', hbecomes⟩ := h r b hb
  obtain ⟨b'', hb'', hbecomes'⟩ := h' r b' hb'
  refine ⟨b'', hb'', ?_⟩
  rw [List.count_append, List.filterMap_append]
  exact hbecomes.trans hbecomes'

/-- An operation that drops and links nothing changes only blocks that may still be merged into. -/
theorem Evolves.quiet (h : g.Evolves [] g') (hdrop : ∀ r, op ≠ .removeFirst (some r))
    (hlink : ∀ r, op.link? r = none) : g.Evolves [op] g' := by
  intro r b hb
  obtain ⟨b', hb', hbecomes⟩ := h r b hb
  refine ⟨b', hb', ?_⟩
  rw [List.count_singleton, beq_false_of_ne (hdrop r), List.filterMap_cons_none (hlink r)]
  exact hbecomes

theorem lt_size (hb : g.blocks[r]? = some b) : r < g.blocks.size :=
  (Array.getElem?_eq_some_iff.mp hb).1

theorem Evolves.lt (h : g.Evolves ops g') (hr : r < g.blocks.size) : r < g'.blocks.size := by
  obtain ⟨b', hb', -⟩ := h r _ (Array.getElem?_eq_getElem hr)
  exact lt_size hb'

theorem orPlaceholder_ne_nil (code : List Instruction) : orPlaceholder code ≠ [] := by
  cases code <;> simp [orPlaceholder]

theorem WellBuiltBlock.mono (h : WellBuiltBlock count r b) (hle : count ≤ count') :
    WellBuiltBlock count' r b where
  id := h.id
  built := h.built
  code := h.code
  succs q hq := by
    obtain ⟨s, hs, hlt⟩ := h.succs q hq
    exact ⟨s, hs, Nat.lt_of_lt_of_le hlt hle⟩

theorem evolves_allocate (g : Graph) (code : List Instruction) (succs : List (Option BlockRef))
    (mergeable : Bool) : g.Evolves [] (g.allocate code succs mergeable).2 := by
  intro r b hb
  refine ⟨b, ?_, .refl b⟩
  rw [allocate, Array.getElem?_push, if_neg (lt_size hb).ne, hb]

theorem WellBuilt.allocate (h : g.WellBuilt)
    (hsuccs : ∀ q ∈ succs, ∃ s, q = some s ∧ s < g.blocks.size) :
    (g.allocate code succs mergeable).2.WellBuilt := by
  have hsize : (g.allocate code succs mergeable).2.blocks.size = g.blocks.size + 1 :=
    Array.size_push ..
  refine ⟨by rw [hsize, ← h.issued]; rfl, fun r b hb => ?_⟩
  rw [hsize]
  rw [Graph.allocate, Array.getElem?_push] at hb
  split at hb
  case isTrue heq =>
    obtain rfl := Option.some.inj hb
    refine ⟨h.issued.trans heq.symm, rfl, orPlaceholder_ne_nil code, fun q hq => ?_⟩
    obtain ⟨s, hs, hlt⟩ := hsuccs q hq
    exact ⟨s, hs, Nat.lt_succ_of_lt hlt⟩
  case isFalse => exact (h.block r b hb).mono (Nat.le_succ _)

theorem WellBuilt.setBlock (h : g.WellBuilt) (hb' : WellBuiltBlock g.blocks.size r b') :
    (g.setBlock r b').WellBuilt := by
  have hsize : (g.setBlock r b').blocks.size = g.blocks.size := by simp [Graph.setBlock]
  refine ⟨h.issued.trans hsize.symm, fun q c hc => ?_⟩
  rw [hsize]
  rw [getElem?_setBlock] at hc
  split at hc
  case isTrue heq =>
    subst heq
    split at hc
    · obtain rfl := Option.some.inj hc
      exact hb'
    · cases hc
  case isFalse => exact h.block q c hc

theorem evolves_setBlock (hb : g.blocks[r]? = some b)
    (hb' : b.Becomes (ops.count (.removeFirst (some r))) (ops.filterMap (Operation.link? r)) b')
    (hother : ∀ q, q ≠ r →
      ops.count (.removeFirst (some q)) = 0 ∧ ops.filterMap (Operation.link? q) = []) :
    g.Evolves ops (g.setBlock r b') := by
  intro q c hc
  rw [getElem?_setBlock]
  by_cases heq : r = q
  · subst heq
    obtain rfl := Option.some.inj (hb.symm.trans hc)
    exact ⟨b', by simp [lt_size hb], hb'⟩
  · obtain ⟨hdrops, hlinks⟩ := hother q (Ne.symm heq)
    exact ⟨c, by rw [if_neg heq, hc], by rw [hdrops, hlinks]; exact .refl c⟩

-- ---------------------------------------------------------------------------
-- Operation by operation
-- ---------------------------------------------------------------------------

structure Builds (g : Graph) (ops : List Operation) (x : Except Fault BlockRef × Graph) : Prop where
  wellBuilt : x.2.WellBuilt
  evolves : g.Evolves ops x.2
  made : ∃ r, x.1 = .ok r ∧ r < x.2.blocks.size

theorem WellBuilt.builds_allocate (h : g.WellBuilt)
    (hsuccs : ∀ q ∈ succs, ∃ s, q = some s ∧ s < g.blocks.size) :
    g.Builds [] (.ok (g.allocate code succs mergeable).1, (g.allocate code succs mergeable).2) :=
  ⟨h.allocate hsuccs, evolves_allocate g code succs mergeable, _, rfl, by simp [Graph.allocate]⟩

theorem WellBuilt.builds_setBlock (h : g.WellBuilt) (hb : g.blocks[r]? = some b)
    (hwell : WellBuiltBlock g.blocks.size r b')
    (hb' : b.Becomes (ops.count (.removeFirst (some r))) (ops.filterMap (Operation.link? r)) b')
    (hother : ∀ q, q ≠ r →
      ops.count (.removeFirst (some q)) = 0 ∧ ops.filterMap (Operation.link? q) = []) :
    g.Builds ops (.ok r, g.setBlock r b') :=
  ⟨h.setBlock hwell, evolves_setBlock hb hb' hother, r, rfl, by
    simpa [Graph.setBlock] using lt_size hb⟩

theorem WellBuilt.builds_prefixedBy (h : g.WellBuilt) (hr : r < g.blocks.size) :
    g.Builds [] (g.prefixedBy r i) := by
  have hb := Array.getElem?_eq_getElem hr
  obtain ⟨hid, hbuilt, -, hsuccs⟩ := h.block r _ hb
  rw [prefixedBy, hb]
  dsimp only
  split
  case isTrue hmerge =>
    refine h.builds_setBlock hb ⟨hid, hbuilt, List.cons_ne_nil i _, hsuccs⟩ ⟨rfl, by simp, ?_⟩
      (by simp)
    intro hfixed
    simp [hfixed] at hmerge
  case isFalse =>
    exact h.builds_allocate (by simpa using hr)

theorem WellBuilt.builds_sequence (h : g.WellBuilt) (hr : r < g.blocks.size)
    (code : List Instruction) : g.Builds [] (g.sequence r code) := by
  induction code with
  | nil => exact ⟨h, .refl g, r, rfl, hr⟩
  | cons i code ih =>
    obtain ⟨hwell, hevolves, q, hq, hlt⟩ := ih
    rw [sequence]
    generalize g.sequence r code = x at hwell hevolves hq hlt
    obtain ⟨made, g'⟩ := x
    subst hq
    obtain ⟨hwell', hevolves', hmade⟩ := hwell.builds_prefixedBy (i := i) hlt
    exact ⟨hwell', hevolves.trans hevolves', hmade⟩

theorem WellBuilt.builds_plain (h : g.WellBuilt)
    (hsuccs : ∀ q ∈ succs, ∃ s, q = some s ∧ s < g.blocks.size) (code : List Instruction) :
    g.Builds [] (g.plain code succs) := by
  have hnone : none ∉ succs := fun hq => by simpa using hsuccs none hq
  rw [plain, if_neg (by simpa using hnone)]
  exact h.builds_allocate hsuccs

theorem WellBuilt.builds_branch {cond : Cond} {type : Ty} (h : g.WellBuilt)
    (hyes : yes < g.blocks.size) (hno : no < g.blocks.size) :
    g.Builds [] (g.branch cond type (some yes) (some no)) := by
  rw [branch]
  dsimp only
  obtain ⟨hwell, hevolves, yes', hyes', hlt⟩ := h.builds_prefixedBy (i := .guard cond type) hyes
  generalize g.prefixedBy yes (.guard cond type) = x at hwell hevolves hyes' hlt
  obtain ⟨made, g₁⟩ := x
  subst hyes'
  obtain ⟨hwell', hevolves', no', hno', hlt'⟩ :=
    hwell.builds_prefixedBy (i := .guard cond.negate type) (hevolves.lt hno)
  dsimp only
  generalize g₁.prefixedBy no (.guard cond.negate type) = x at hwell' hevolves' hno' hlt'
  obtain ⟨made, g₂⟩ := x
  subst hno'
  have hyes₂ : yes' < g₂.blocks.size := hevolves'.lt hlt
  have hlast : g₂.Builds [] (.ok (g₂.allocate [] [some yes', some no'] true).1,
      (g₂.allocate [] [some yes', some no'] true).2) :=
    hwell'.builds_allocate (by simpa using ⟨hyes₂, hlt'⟩)
  exact ⟨hlast.wellBuilt, (hevolves.trans hevolves').trans hlast.evolves, hlast.made⟩

theorem WellBuilt.builds_linkTo (h : g.WellBuilt) (hr : r < g.blocks.size)
    (hs : s < g.blocks.size) : g.Builds [.linkTo (some r) (some s)] (g.linkTo r (some s)) := by
  have hb := Array.getElem?_eq_getElem hr
  obtain ⟨hid, hbuilt, hcode, hsuccs⟩ := h.block r _ hb
  rw [linkTo, hb]
  refine h.builds_setBlock hb ⟨hid, hbuilt, hcode, ?_⟩ ⟨rfl, ?_, fun hfixed => ⟨hfixed, ?_⟩⟩ ?_
  · intro q hq
    rcases List.mem_append.mp hq with hq | hq
    · exact hsuccs q hq
    · exact ⟨s, List.mem_singleton.mp hq, hs⟩
  · simp [Operation.link?]
  · simp
  · intro q hq
    simp [Operation.link?, Ne.symm hq]

theorem WellBuilt.builds_doNotMerge (h : g.WellBuilt) (hr : r < g.blocks.size) :
    g.Builds [] (g.doNotMerge r) := by
  have hb := Array.getElem?_eq_getElem hr
  obtain ⟨hid, hbuilt, hcode, hsuccs⟩ := h.block r _ hb
  rw [doNotMerge, hb]
  exact h.builds_setBlock hb ⟨hid, hbuilt, hcode, hsuccs⟩ ⟨rfl, by simp, fun _ => ⟨rfl, rfl⟩⟩
    (by simp)

theorem WellBuilt.builds_removeFirst (h : g.WellBuilt) (hr : r < g.blocks.size) :
    g.Builds [.removeFirst (some r)] (g.removeFirst r) := by
  have hb := Array.getElem?_eq_getElem hr
  obtain ⟨hid, hbuilt, -, hsuccs⟩ := h.block r _ hb
  rw [removeFirst, hb]
  refine h.builds_setBlock hb ⟨hid, hbuilt, orPlaceholder_ne_nil _, hsuccs⟩
    ⟨rfl, ?_, fun hfixed => ⟨hfixed, ?_⟩⟩ ?_
  · simp [Operation.link?]
  · simp [dropFirst]
  · intro q hq
    simp [Operation.link?, Ne.symm hq]

-- ---------------------------------------------------------------------------
-- Any operations
-- ---------------------------------------------------------------------------

theorem apply_of_fault (h : op.fault? = some f) : g.apply op = (.error f, g) := by
  cases op with
  | branch cond type yes no =>
    cases yes <;> cases no <;> simp_all [Operation.fault?, apply, apply.block, branch, Except.map]
  | plain code succs =>
    simp only [Operation.fault?] at h
    split at h
    · rename_i hnone
      obtain rfl := Option.some.inj h
      simp_all [apply, apply.block, plain, Except.map]
    · cases h
  | linkTo block succ =>
    cases block <;> cases succ <;> simp_all [Operation.fault?, apply]
  | sequence block code =>
    cases block <;> cases code <;> simp_all [Operation.fault?, apply]
  | prefixedBy block i | doNotMerge block | removeFirst block =>
    cases block <;> simp_all [Operation.fault?, apply]
  | terminal i | pivot => cases h

theorem Builds.quiet (h : g.Builds [] x) (hdrop : ∀ r, op ≠ .removeFirst (some r))
    (hlink : ∀ r, op.link? r = none) : g.Builds [op] x :=
  ⟨h.wellBuilt, h.evolves.quiet hdrop hlink, h.made⟩

theorem WellBuilt.builds_apply (h : g.WellBuilt) (hop : g.Offers op) (hf : op.fault? = none) :
    (∃ x, g.apply op = apply.block x ∧ g.Builds [op] x) ∨ op = .sequence none [] := by
  cases op with
  | terminal i =>
    refine .inl ⟨(.ok _, _), rfl, (h.builds_allocate ?_).quiet ?_ ?_⟩ <;> simp [Operation.link?]
  | pivot =>
    refine .inl ⟨(.ok _, _), rfl, (h.builds_allocate ?_).quiet ?_ ?_⟩ <;> simp [Operation.link?]
  | branch cond type yes no =>
    obtain ⟨⟨yes, rfl⟩, no, rfl⟩ : (∃ r, yes = some r) ∧ ∃ r, no = some r := by
      cases yes <;> cases no <;> simp [Operation.fault?] at hf ⊢
    have hblocks : yes < g.blocks.size ∧ no < g.blocks.size := by
      simpa [Offers, Operation.blocks] using hop
    refine .inl ⟨_, rfl, (h.builds_branch hblocks.1 hblocks.2).quiet ?_ ?_⟩ <;>
      simp [Operation.link?]
  | plain code succs =>
    have hnone : none ∉ succs := by simpa [Operation.fault?] using hf
    have hsuccs : ∀ q ∈ succs, ∃ s, q = some s ∧ s < g.blocks.size := by
      intro q hq
      cases q with
      | none => exact absurd hq hnone
      | some s => exact ⟨s, rfl, hop _ hq s rfl⟩
    refine .inl ⟨_, rfl, (h.builds_plain hsuccs code).quiet ?_ ?_⟩ <;> simp [Operation.link?]
  | sequence next code =>
    cases next with
    | none =>
      cases code with
      | nil => exact .inr rfl
      | cons => cases hf
    | some r =>
      have hr : r < g.blocks.size := by simpa [Offers, Operation.blocks] using hop
      refine .inl ⟨_, rfl, (h.builds_sequence hr code).quiet ?_ ?_⟩ <;> simp [Operation.link?]
  | prefixedBy block i =>
    cases block with
    | none => cases hf
    | some r =>
      have hr : r < g.blocks.size := by simpa [Offers, Operation.blocks] using hop
      refine .inl ⟨_, rfl, (h.builds_prefixedBy hr).quiet ?_ ?_⟩ <;> simp [Operation.link?]
  | linkTo block succ =>
    cases succ with
    | none => cases hf
    | some s =>
      cases block with
      | none => cases hf
      | some r =>
        have hblocks : r < g.blocks.size ∧ s < g.blocks.size := by
          simpa [Offers, Operation.blocks] using hop
        exact .inl ⟨_, rfl, h.builds_linkTo hblocks.1 hblocks.2⟩
  | doNotMerge block =>
    cases block with
    | none => cases hf
    | some r =>
      have hr : r < g.blocks.size := by simpa [Offers, Operation.blocks] using hop
      refine .inl ⟨_, rfl, (h.builds_doNotMerge hr).quiet ?_ ?_⟩ <;> simp [Operation.link?]
  | removeFirst block =>
    cases block with
    | none => cases hf
    | some r =>
      have hr : r < g.blocks.size := by simpa [Offers, Operation.blocks] using hop
      exact .inl ⟨_, rfl, h.builds_removeFirst hr⟩

theorem WellBuilt.apply (h : g.WellBuilt) (hop : g.Offers op) :
    (g.apply op).2.WellBuilt ∧ g.Evolves [op] (g.apply op).2 := by
  cases hf : op.fault? with
  | some f =>
    rw [apply_of_fault hf]
    refine ⟨h, (Evolves.refl g).quiet ?_ fun r => ?_⟩
    · rintro r rfl
      cases hf
    · unfold Operation.link?
      split
      · cases hf
      · rfl
  | none =>
    rcases h.builds_apply hop hf with ⟨x, hx, hbuilds⟩ | rfl
    · rw [hx]
      exact ⟨hbuilds.wellBuilt, hbuilds.evolves⟩
    · exact ⟨h, (Evolves.refl g).quiet (by simp) fun r => rfl⟩

theorem WellBuilt.applyAll (h : g.WellBuilt) (hops : g.OffersAll ops) :
    (g.applyAll ops).WellBuilt ∧ g.Evolves ops (g.applyAll ops) := by
  induction ops generalizing g with
  | nil => exact ⟨h, .refl g⟩
  | cons op ops ih =>
    obtain ⟨hwell, hevolves⟩ := h.apply hops.1
    obtain ⟨hwell', hevolves'⟩ := ih hwell hops.2
    exact ⟨hwell', hevolves.trans hevolves'⟩

theorem wellBuilt_empty : WellBuilt {} := ⟨rfl, by simp⟩

theorem WellBuilt.ids (h : g.WellBuilt) : g.blocks.toList.map (·.id) = List.range g.issued := by
  refine List.ext_getElem? fun r => ?_
  rw [List.getElem?_map, Array.getElem?_toList, h.issued]
  cases hb : g.blocks[r]? with
  | none => simpa using hb
  | some b => simp [lt_size hb, (h.block r b hb).id]

/-- What was built has no block that a cleanup could find empty or without a successor. -/
theorem WellBuilt.no_flaw {calls : Array Call} (h : g.WellBuilt) (hb : g.blocks[r]? = some b)
    (hflaw : b.Flaw registry calls kind who) : kind ≠ .emptyBlock ∧ kind ≠ .nilSuccessor := by
  have hblock := h.block r b hb
  cases hflaw with
  | empty hcode => exact absurd hcode hblock.code
  | nilSuccessor hnone =>
    obtain ⟨s, hs, -⟩ := hblock.succs none hnone
    cases hs
  | unresolved => simp
  | missing => simp

theorem WellBuilt.cleanup (h : g.WellBuilt) {registry : Registry} {calls : Array Call} {p : Program}
    (hfail : (p.cleanup registry { g with calls }).failure = some (.defect e)) :
    e.kind ≠ .emptyBlock ∧ e.kind ≠ .nilSuccessor := by
  cases hroot : registry.body? p.entry with
  | none =>
    rw [Program.cleanup_of_none hroot] at hfail
    obtain rfl := Failure.defect.inj (Option.some.inj hfail)
    simp
  | some root =>
    rw [Program.cleanup_of_some hroot] at hfail
    rcases (Sweep.run_start hroot).2.2 _ hfail with
      ⟨m, r, b, kind, who, -, -, hb, hflaw, -, heq⟩ | ⟨heq, -⟩
    · obtain rfl := Failure.defect.inj heq
      exact h.no_flaw hb hflaw
    · cases heq

end

/-- Building operations are applied one after another, each given blocks that were created before it
or none. However they go, the blocks that result have the identities from zero on in the order of
their creation, none is empty and none has a missing successor. Operations that come later keep the
identity of a block and append to its successors what is linked to it; once it is not mergeable it
stays so, and its instructions change only by dropping the first one. An operation fails exactly if
it lacks a block, and leaves the graph as it was. So no cleanup ever finds an empty block or a
missing successor, whatever is registered. -/
theorem applyAll_keeps_blocks (ops later : List Operation) (h : OffersAll {} (ops ++ later)) :
    (applyAll {} ops).blocks.toList.map (·.id) = List.range (applyAll {} ops).issued ∧
      (∀ b ∈ (applyAll {} ops).blocks, b.code ≠ [] ∧ none ∉ b.succs) ∧
      (∀ (r : BlockRef) (b : Block), (applyAll {} ops).blocks[r]? = some b →
        ∃ b', (applyAll {} (ops ++ later)).blocks[r]? = some b' ∧ b'.id = b.id ∧
          b'.succs = b.succs ++ later.filterMap (Operation.link? r) ∧
          (b.mergeable = false → b'.mergeable = false ∧
            b'.code = dropFirst^[later.count (.removeFirst (some r))] b.code)) ∧
      (∀ op, (applyAll {} ops).Offers op →
        (∀ f, op.fault? = some f → (applyAll {} ops).apply op = (.error f, applyAll {} ops)) ∧
          (op.fault? = none → ∃ r, ((applyAll {} ops).apply op).1 = .ok r)) ∧
      ∀ code calls (p : Program) e,
        (p.cleanup code { applyAll {} ops with calls }).failure = some (.defect e) →
          e.kind ≠ .emptyBlock ∧ e.kind ≠ .nilSuccessor := by
  obtain ⟨hops, hlater⟩ := offersAll_append.mp h
  obtain ⟨hwell, -⟩ := wellBuilt_empty.applyAll hops
  obtain ⟨-, hevolves⟩ := hwell.applyAll hlater
  refine ⟨hwell.ids, fun b hb => ?_, fun r b hb => ?_, fun op hop => ⟨fun f => apply_of_fault, ?_⟩,
    fun code calls p e => hwell.cleanup⟩
  · obtain ⟨r, hr⟩ := Array.mem_iff_getElem?.mp hb
    have hblock := hwell.block r b hr
    refine ⟨hblock.code, fun hnone => ?_⟩
    obtain ⟨s, hs, -⟩ := hblock.succs none hnone
    cases hs
  · obtain ⟨b', hb', hbecomes⟩ := hevolves r b hb
    rw [applyAll_append]
    exact ⟨b', hb', hbecomes.id, hbecomes.succs, hbecomes.fixed⟩
  · intro hf
    rcases hwell.builds_apply hop hf with ⟨x, hx, hbuilds⟩ | rfl
    · obtain ⟨r, hr, -⟩ := hbuilds.made
      exact ⟨some r, by rw [hx, apply.block, hr]; rfl⟩
    · exact ⟨none, rfl⟩

/-- A loop is built around a branch, one link fails, and the way out is fixed. -/
def loopOperations : List Operation :=
  [.pivot, .terminal (.ret .absent), .sequence (some 0) [.nop, .not], .linkTo (some 0) none,
    .branch .isTrue .absent (some 2) (some 1), .doNotMerge (some 1)]

def loopLinks : List Operation :=
  [.linkTo (some 0) (some 3), .prefixedBy (some 1) .nop, .removeFirst (some 1)]

theorem applyAll_keeps_blocks_loop :
    OffersAll {} (loopOperations ++ loopLinks) ∧
      (applyAll {} loopOperations).blocks.toList.map (·.id) = [0, 1, 2, 3] ∧
      ∃ b', (applyAll {} (loopOperations ++ loopLinks)).blocks[1]? = some b' ∧ b'.id = 1 ∧
        b'.mergeable = false ∧ b'.code = [.ret .absent] := by
  have h : OffersAll {} (loopOperations ++ loopLinks) := by decide
  obtain ⟨hids, -, hkept, -⟩ := applyAll_keeps_blocks loopOperations loopLinks h
  refine ⟨h, hids.trans (by decide), ?_⟩
  obtain ⟨b', hb', hid, -, hfixed⟩ := hkept 1 _ rfl
  obtain ⟨hmergeable, hcode⟩ := hfixed rfl
  exact ⟨b', hb', hid, hmergeable, hcode.trans (by decide)⟩

end Graph

end Linkage
