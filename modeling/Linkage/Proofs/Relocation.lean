import Linkage.Proofs.Building
import Linkage.Proofs.DepthFirst
import Linkage.Proofs.Mirror

/-!
# Graphs behind others

A graph that is built in a store with blocks and calls in it already has all its references moved
behind these. Nothing that is done to it tells the difference: every operation, every walk and every
cleanup does the same at the moved places, and leaves what was there before as it was.
-/

namespace Linkage

-- ---------------------------------------------------------------------------
-- Moved references
-- ---------------------------------------------------------------------------

section
variable (β : BlockRef → BlockRef) (γ : CallRef → CallRef)

def Instruction.relocate : Instruction → Instruction
  | .call site => .call (γ site)
  | i => i

def Block.relocate (b : Block) : Block :=
  { b with code := b.code.map (Instruction.relocate γ), succs := b.succs.map (·.map β) }

def Registry.relocate (code : Registry) : Registry := code.map fun entry => (entry.1, entry.2.map β)

def Operation.relocate : Operation → Operation
  | .terminal i => .terminal (i.relocate γ)
  | .branch cond type yes no => .branch cond type (yes.map β) (no.map β)
  | .pivot => .pivot
  | .plain code succs => .plain (code.map (Instruction.relocate γ)) (succs.map (·.map β))
  | .sequence next code => .sequence (next.map β) (code.map (Instruction.relocate γ))
  | .prefixedBy block i => .prefixedBy (block.map β) (i.relocate γ)
  | .linkTo block succ => .linkTo (block.map β) (succ.map β)
  | .doNotMerge block => .doNotMerge (block.map β)
  | .removeFirst block => .removeFirst (block.map β)

end

namespace Graph

/-- The place of a block in a store that held `old` before. -/
def shift (old : Graph) (r : BlockRef) : BlockRef := old.blocks.size + r

def shiftCall (old : Graph) (site : CallRef) : CallRef := old.calls.size + site

def after (old g : Graph) : Graph where
  blocks := old.blocks ++ g.blocks.map (Block.relocate old.shift old.shiftCall)
  calls := old.calls ++ g.calls
  issued := g.issued

def resultAfter (old : Graph) (x : Except Fault BlockRef × Graph) : Except Fault BlockRef × Graph :=
  (x.1.map old.shift, old.after x.2)

end Graph

section
variable {β : BlockRef → BlockRef} {γ : CallRef → CallRef}

theorem Instruction.relocate_eq_nop {i : Instruction} : i.relocate γ = .nop ↔ i = .nop := by
  cases i <;> simp [relocate]

theorem Block.isPlaceholder_relocate (b : Block) :
    (b.relocate β γ).isPlaceholder = b.isPlaceholder := by
  rw [Bool.eq_iff_iff]
  simp [isPlaceholder, relocate, List.map_eq_singleton_iff, Instruction.relocate_eq_nop]

theorem Block.isDeadLeaf_relocate (b : Block) : (b.relocate β γ).isDeadLeaf = b.isDeadLeaf := by
  simp only [isDeadLeaf, isPlaceholder_relocate]
  simp [relocate]

theorem Registry.find_relocate (code : Registry) (m : MemberId) :
    (code.relocate β).find m = (code.find m).map (·.map β) := by
  induction code with
  | nil => rfl
  | cons entry code ih =>
    obtain ⟨k, root⟩ := entry
    by_cases hm : m = k
    · subst hm
      simp [Registry.find, relocate]
    · have hne : (m == k) = false := beq_false_of_ne hm
      simpa [Registry.find, relocate, List.lookup_cons, hne] using ih

theorem Registry.body?_relocate (code : Registry) (m : MemberId) :
    (code.relocate β).body? m = (code.body? m).map β := by
  rw [body?, find_relocate, body?]
  cases code.find m with
  | none => rfl
  | some root => rfl

theorem Graph.orPlaceholder_relocate (code : List Instruction) :
    orPlaceholder (code.map (Instruction.relocate γ)) =
      (orPlaceholder code).map (Instruction.relocate γ) := by
  cases code <;> rfl

theorem Instruction.relocate_eq (hγ : ∀ c, γ c = c) (i : Instruction) : i.relocate γ = i := by
  cases i with
  | call site => exact congrArg Instruction.call (hγ site)
  | _ => rfl

theorem Instruction.map_relocate_eq (hγ : ∀ c, γ c = c) (is : List Instruction) :
    is.map (Instruction.relocate γ) = is :=
  (List.map_congr_left fun i _ => relocate_eq hγ i).trans (List.map_id' is)

section
variable (hβ : ∀ r, β r = r) (hγ : ∀ c, γ c = c)

include hβ

theorem Registry.relocate_eq (code : Registry) : code.relocate β = code := by
  obtain rfl : β = fun r => r := funext hβ
  simp [relocate]

theorem Failure.rename_eq (f : Failure) : f.rename id β = f := by
  obtain rfl : β = fun r => r := funext hβ
  cases f with
  | fault f => rfl
  | defect e =>
    have hkind : e.kind.rename id = e.kind := by cases e.kind <;> rfl
    simp [rename, Defect.rename, hkind]

include hγ

theorem Block.relocate_eq (b : Block) : b.relocate β γ = b := by
  obtain rfl : β = fun r => r := funext hβ
  simp [relocate, Instruction.map_relocate_eq hγ]

theorem Operation.relocate_eq (op : Operation) : op.relocate β γ = op := by
  obtain rfl : β = fun r => r := funext hβ
  cases op <;> simp [relocate, Instruction.relocate_eq hγ, Instruction.map_relocate_eq hγ]

end

end

namespace Graph

section
variable (old g : Graph)

theorem size_blocks_after : (old.after g).blocks.size = old.blocks.size + g.blocks.size := by
  simp [after]

theorem after_empty {old : Graph} (h : old.issued = 0) : old.after {} = old := by
  obtain ⟨blocks, calls, issued⟩ := old
  subst h
  simp [after]

@[simp] theorem getElem?_blocks_after (r : BlockRef) :
    (old.after g).blocks[old.shift r]? =
      (g.blocks[r]?).map (Block.relocate old.shift old.shiftCall) := by
  simp [after, shift, Array.getElem?_append_right]

@[simp] theorem getElem?_calls_after (site : CallRef) :
    (old.after g).calls[old.shiftCall site]? = g.calls[site]? := by
  simp [after, shiftCall, Array.getElem?_append_right]

theorem setBlock_after (r : BlockRef) (b : Block) :
    (old.after g).setBlock (old.shift r) (b.relocate old.shift old.shiftCall) =
      old.after (g.setBlock r b) := by
  simp [after, setBlock, shift]

theorem allocate_after (code : List Instruction) (succs : List (Option BlockRef)) (m : Bool) :
    (old.after g).allocate (code.map (Instruction.relocate old.shiftCall))
        (succs.map (·.map old.shift)) m =
      (old.shift (g.allocate code succs m).1, old.after (g.allocate code succs m).2) := by
  simp [allocate, shift, orPlaceholder_relocate, after, Block.relocate]

theorem bare_after : (old.after g).bare = (old.shift g.bare.1, old.after g.bare.2) := by
  simp [bare, shift, after, Block.relocate]

theorem plain_after (code : List Instruction) (succs : List (Option BlockRef)) :
    (old.after g).plain (code.map (Instruction.relocate old.shiftCall))
        (succs.map (·.map old.shift)) =
      old.resultAfter (g.plain code succs) := by
  have hany : (succs.map (·.map old.shift)).any Option.isNone = succs.any Option.isNone := by
    simp [List.any_map, Function.comp_def]
  rw [plain, plain, hany, allocate_after]
  split <;> rfl

theorem prefixedBy_after (r : BlockRef) (i : Instruction) :
    (old.after g).prefixedBy (old.shift r) (i.relocate old.shiftCall) =
      old.resultAfter (g.prefixedBy r i) := by
  rw [prefixedBy, prefixedBy, getElem?_blocks_after]
  cases hb : g.blocks[r]? with
  | none => rfl
  | some b =>
    have hset := setBlock_after old g r { b with code := i :: b.code }
    have hnew := allocate_after old g [i] [some r] true
    simp only [Option.map_some]
    by_cases hm : b.mergeable
    · have hm' : (b.relocate old.shift old.shiftCall).mergeable := hm
      rw [if_pos hm, if_pos hm', resultAfter, ← hset]
      rfl
    · have hm' : ¬ (b.relocate old.shift old.shiftCall).mergeable := hm
      rw [if_neg hm, if_neg hm']
      by_cases hbuilt : b.built
      · have hbuilt' : (b.relocate old.shift old.shiftCall).built := hbuilt
        rw [if_pos hbuilt, if_pos hbuilt']
        exact congrArg (fun x : BlockRef × Graph => (Except.ok x.1, x.2)) hnew
      · have hbuilt' : ¬ (b.relocate old.shift old.shiftCall).built := hbuilt
        rw [if_neg hbuilt, if_neg hbuilt']
        rfl

theorem sequence_after (r : BlockRef) (code : List Instruction) :
    (old.after g).sequence (old.shift r) (code.map (Instruction.relocate old.shiftCall)) =
      old.resultAfter (g.sequence r code) := by
  induction code with
  | nil => rfl
  | cons i code ih =>
    rw [List.map_cons, sequence, sequence, ih]
    rcases g.sequence r code with ⟨f | q, h⟩
    · rfl
    · exact prefixedBy_after old h q i

theorem branch_after (cond : Cond) (type : Ty) (yes no : Option BlockRef) :
    (old.after g).branch cond type (yes.map old.shift) (no.map old.shift) =
      old.resultAfter (g.branch cond type yes no) := by
  rcases yes with _ | yes
  · rfl
  rcases no with _ | no
  · rfl
  · have hyes := prefixedBy_after old g yes (.guard cond type)
    simp only [Option.map_some, branch]
    simp only [Instruction.relocate] at hyes
    rw [hyes]
    rcases g.prefixedBy yes (.guard cond type) with ⟨f | yes, h⟩
    · rfl
    have hno := prefixedBy_after old h no (.guard cond.negate type)
    simp only [Instruction.relocate] at hno
    simp only [resultAfter, Except.map]
    rw [hno]
    rcases h.prefixedBy no (.guard cond.negate type) with ⟨f | no, h⟩
    · rfl
    exact congrArg (fun x : BlockRef × Graph => (Except.ok x.1, x.2))
      (allocate_after old h [] [some yes, some no] true)

/-- An operation that changes one block changes the moved block in the same way. -/
theorem update_after (r : BlockRef) (f f' : Block → Block)
    (hf : ∀ b, f' (b.relocate old.shift old.shiftCall) =
      (f b).relocate old.shift old.shiftCall) :
    (match (old.after g).blocks[old.shift r]? with
      | none => (.error .absent, old.after g)
      | some b => (.ok (old.shift r), (old.after g).setBlock (old.shift r) (f' b))) =
      old.resultAfter (match g.blocks[r]? with
        | none => (.error .absent, g)
        | some b => (.ok r, g.setBlock r (f b))) := by
  rw [getElem?_blocks_after]
  cases g.blocks[r]? with
  | none => rfl
  | some b =>
    simp only [Option.map_some, hf, resultAfter, setBlock_after]
    rfl

theorem linkTo_after (r : BlockRef) (succ : Option BlockRef) :
    (old.after g).linkTo (old.shift r) (succ.map old.shift) =
      old.resultAfter (g.linkTo r succ) := by
  cases succ with
  | none => rfl
  | some s =>
    refine update_after old g r (fun b => { b with succs := b.succs ++ [some s] })
      (fun b => { b with succs := b.succs ++ [some (old.shift s)] }) fun b => ?_
    simp [Block.relocate]

theorem doNotMerge_after (r : BlockRef) :
    (old.after g).doNotMerge (old.shift r) = old.resultAfter (g.doNotMerge r) :=
  update_after old g r (fun b => { b with mergeable := false })
    (fun b => { b with mergeable := false }) fun _ => rfl

theorem removeFirst_after (r : BlockRef) :
    (old.after g).removeFirst (old.shift r) = old.resultAfter (g.removeFirst r) := by
  refine update_after old g r (fun b => { b with code := orPlaceholder (b.code.drop 1) })
    (fun b => { b with code := orPlaceholder (b.code.drop 1) }) fun b => ?_
  simp [Block.relocate, ← orPlaceholder_relocate]

theorem cut_after (r : BlockRef) (n : Nat) :
    (old.after g).cut (old.shift r) n = old.resultAfter (g.cut r n) := by
  rw [cut, cut, getElem?_blocks_after]
  cases g.blocks[r]? with
  | none => rfl
  | some b =>
    have hset := setBlock_after old g r { b with succs := b.succs.set n none }
    have hlen : (b.relocate old.shift old.shiftCall).succs.length = b.succs.length := by
      simp [Block.relocate]
    simp only [Option.map_some, hlen]
    split
    · rw [resultAfter, ← hset]
      simp [Block.relocate, List.map_set, Except.map]
    · rfl

theorem block_after {x x' : Except Fault BlockRef × Graph} (h : x' = old.resultAfter x) :
    apply.block x' = ((apply.block x).1.map (·.map old.shift), old.after (apply.block x).2) := by
  subst h
  obtain ⟨_ | r, g⟩ := x <;> rfl

theorem apply_after (op : Operation) :
    (old.after g).apply (op.relocate old.shift old.shiftCall) =
      ((g.apply op).1.map (·.map old.shift), old.after (g.apply op).2) := by
  cases op with
  | terminal i =>
    exact congrArg (fun x : BlockRef × Graph => (Except.ok (some x.1), x.2))
      (allocate_after old g [i] [] true)
  | pivot =>
    exact congrArg (fun x : BlockRef × Graph => (Except.ok (some x.1), x.2))
      (allocate_after old g [] [] false)
  | branch cond type yes no => exact block_after old (branch_after old g ..)
  | plain code succs => exact block_after old (plain_after old g ..)
  | sequence next code =>
    cases next with
    | none => cases code <;> rfl
    | some r => exact block_after old (sequence_after old g ..)
  | prefixedBy block i =>
    cases block with
    | none => rfl
    | some r => exact block_after old (prefixedBy_after old g ..)
  | linkTo block succ =>
    cases succ with
    | none => rfl
    | some s =>
      cases block with
      | none => rfl
      | some r => exact block_after old (linkTo_after old g r (some s))
  | doNotMerge block =>
    cases block with
    | none => rfl
    | some r => exact block_after old (doNotMerge_after old g r)
  | removeFirst block =>
    cases block with
    | none => rfl
    | some r => exact block_after old (removeFirst_after old g r)

theorem addCall_after (c : Call) :
    (old.after g).addCall c = (old.shiftCall (g.addCall c).1, old.after (g.addCall c).2) := by
  simp [addCall, shiftCall, after]

theorem resolve_after (site : CallRef) (targets : List (Option MemberId)) :
    (old.after g).resolve (old.shiftCall site) targets = old.after (g.resolve site targets) := by
  rw [resolve, resolve, getElem?_calls_after]
  cases g.calls[site]? with
  | none => rfl
  | some c => simp [after, shiftCall]

-- ---------------------------------------------------------------------------
-- Listings
-- ---------------------------------------------------------------------------

theorem name_relocate (d : Declarations) (i : Instruction) :
    (i.relocate old.shiftCall).name d (old.after g).calls = i.name d g.calls := by
  cases i with
  | call site => simp [Instruction.relocate, Instruction.name]
  | _ => rfl

theorem dumpBlock_after (d : Declarations) (b : Block) :
    (old.after g).dumpBlock d (b.relocate old.shift old.shiftCall) = g.dumpBlock d b := by
  have hlines : (b.relocate old.shift old.shiftCall).code.mapM
      (Instruction.name d (old.after g).calls) = b.code.mapM (Instruction.name d g.calls) := by
    simp only [Block.relocate, List.mapM_map, Function.comp_def, name_relocate]
  rw [dumpBlock, hlines]
  rfl

theorem dump_after (d : Declarations) (r : BlockRef) :
    (old.after g).dump d (old.shift r) = g.dump d r := by
  rw [dump, dump, getElem?_blocks_after]
  cases g.blocks[r]? with
  | none => rfl
  | some b => exact dumpBlock_after old g d b

def seenAfter (seen : Array Bool) : Array Bool := Array.replicate old.blocks.size false ++ seen

theorem getD_seenAfter (seen : Array Bool) (r : BlockRef) :
    (old.seenAfter seen).getD (old.shift r) false = seen.getD r false := by
  simp [seenAfter, shift, Array.getD_eq_getD_getElem?, Array.getElem?_append_right]

theorem seenAfter_set (seen : Array Bool) (r : BlockRef) :
    (old.seenAfter seen).setIfInBounds (old.shift r) true =
      old.seenAfter (seen.setIfInBounds r true) := by
  simp [seenAfter, shift]

theorem unseen_after : (old.after g).unseen = old.seenAfter g.unseen := by
  simp [unseen, seenAfter, size_blocks_after]

end

section
variable {g : Graph} {root r : BlockRef} {steps : Nat} {seen : Array Bool}
  {found stack rest : List BlockRef}

theorem walkFrom_absent (hdrop : stack.dropWhile (seen.getD · false) = r :: rest)
    (hb : g.blocks[r]? = none) : g.walkFrom steps seen found stack = .error .absent := by
  cases steps with
  | zero => rw [walkFrom, hdrop]
  | succ steps =>
    rw [walkFrom, hdrop]
    simp only [hb]

/-- A walk that has enough steps does not need more. -/
theorem Walking.walkFrom_add (hw : g.Walking root steps seen found stack) (extra : Nat) :
    g.walkFrom (steps + extra) seen found stack = g.walkFrom steps seen found stack := by
  induction steps generalizing seen found stack with
  | zero =>
    cases hdrop : stack.dropWhile (seen.getD · false) with
    | nil => rw [walkFrom_nil hdrop, walkFrom_nil hdrop]
    | cons r rest =>
      -- as many blocks were found as there are, so one that is left is not there
      have hb : g.blocks[r]? = none := by
        refine Array.getElem?_eq_none (Nat.le_of_not_lt fun hlt => (hw.split hdrop).1 ?_)
        exact mem_of_length_le hw.nodup hw.there (by simpa using hw.budget) hlt
      rw [walkFrom_absent hdrop hb, walkFrom_absent hdrop hb]
  | succ steps ih =>
    cases hdrop : stack.dropWhile (seen.getD · false) with
    | nil => rw [walkFrom_nil hdrop, walkFrom_nil hdrop]
    | cons r rest =>
      cases hb : g.blocks[r]? with
      | none => rw [walkFrom_absent hdrop hb, walkFrom_absent hdrop hb]
      | some b =>
        rw [Nat.add_right_comm, walkFrom_cons hdrop hb, walkFrom_cons hdrop hb]
        exact ih (hw.step hdrop hb)

theorem dropWhile_seenAfter (old : Graph) (seen : Array Bool) (stack : List BlockRef) :
    (stack.map old.shift).dropWhile ((old.seenAfter seen).getD · false) =
      (stack.dropWhile (seen.getD · false)).map old.shift :=
  Sweep.dropWhile_map_of_eq fun r _ => old.getD_seenAfter seen r

theorem walkFrom_after (old g : Graph) (steps : Nat) (seen : Array Bool)
    (found stack : List BlockRef) :
    (old.after g).walkFrom steps (old.seenAfter seen) (found.map old.shift)
        (stack.map old.shift) =
      (g.walkFrom steps seen found stack).map (List.map old.shift) := by
  induction steps generalizing seen found stack with
  | zero =>
    rw [walkFrom, walkFrom, dropWhile_seenAfter]
    cases stack.dropWhile (seen.getD · false) with
    | nil => simp [Except.map]
    | cons r rest => rfl
  | succ steps ih =>
    have hafter := dropWhile_seenAfter old seen stack
    cases hdrop : stack.dropWhile (seen.getD · false) with
    | nil =>
      rw [hdrop] at hafter
      rw [walkFrom_nil hafter, walkFrom_nil hdrop]
      simp [Except.map]
    | cons r rest =>
      rw [hdrop] at hafter
      have hb' := getElem?_blocks_after old g r
      cases hb : g.blocks[r]? with
      | none =>
        rw [hb] at hb'
        rw [walkFrom_absent hafter hb', walkFrom_absent hdrop hb]
        rfl
      | some b =>
        rw [hb] at hb'
        rw [walkFrom_cons hafter hb', walkFrom_cons hdrop hb, seenAfter_set, ← ih]
        simp [Block.relocate, List.filterMap_map, List.map_filterMap]

theorem walk_after (old g : Graph) (root : Option BlockRef) :
    (old.after g).walk (root.map old.shift) = (g.walk root).map (List.map old.shift) := by
  cases root with
  | none => rfl
  | some root =>
    have hwalk := walkFrom_after old g (g.blocks.size + old.blocks.size) g.unseen [] [root]
    rw [(Walking.start g root).walkFrom_add] at hwalk
    rw [Option.map_some, walk, walk, unseen_after, size_blocks_after, Nat.add_comm]
    exact hwalk

end

end Graph

-- ---------------------------------------------------------------------------
-- Cleanup
-- ---------------------------------------------------------------------------

namespace Sweep

def after (old : Graph) (s : Sweep) : Sweep where
  graph := old.after s.graph
  reachable := s.reachable
  seen := old.seenAfter s.seen
  count := s.count
  stack := s.stack.map (Frame.rename id old.shift)

def resultAfter (old : Graph) (x : Sweep × Option Failure) : Sweep × Option Failure :=
  (x.1.after old, x.2.map (Failure.rename id old.shift))

def keep (s : Sweep) (r : BlockRef) (b : Block) (succs : List BlockRef) : Sweep :=
  { s with graph := s.graph.setBlock r { b with succs := succs.map some } }

def proceed (code : Registry) (f : Frame) (s : Sweep) (succs : List BlockRef)
    (is : List Instruction) : Sweep × Option Failure :=
  match s.recordAll code f is with
  | (s, some failure) => (s, some failure)
  | (s, none) => (s.schedule succs f.member, none)

section
variable (old : Graph) (code : Registry) (s : Sweep) (f : Frame)

theorem visit_eq (r : BlockRef) (b : Block) :
    visit code s f r b =
      if b.code.isEmpty then (s.mark r, some (.defect ⟨.emptyBlock, some f.member, some r⟩))
      else match kept s.graph b.succs with
        | none => (s.mark r, some (.defect ⟨.nilSuccessor, some f.member, some r⟩))
        | some succs => ((s.mark r).keep r b succs).proceed code f succs b.code := rfl

@[simp] theorem isSeen_after : (s.after old).isSeen (f.rename id old.shift) = s.isSeen f := by
  unfold isSeen
  cases hr : f.block with
  | none => simp [Frame.rename, hr]
  | some r =>
    simp only [Frame.rename, hr, Option.map_some]
    exact old.getD_seenAfter s.seen r

theorem reach_after (m : MemberId) : (s.after old).reach m = (s.reach m).after old := by
  unfold reach
  split <;> simp_all [after]

theorem enter_after (m : MemberId) (root : Option BlockRef) :
    (s.after old).enter m (root.map old.shift) = (s.enter m root).after old := by
  rw [enter, enter, reach_after]
  rfl

theorem enterTargets_after (targets : List (Option MemberId)) :
    (s.after old).enterTargets (code.relocate old.shift) (f.rename id old.shift) targets =
      resultAfter old (s.enterTargets code f targets) := by
  induction targets generalizing s with
  | nil => rfl
  | cons target targets ih =>
    cases target with
    | none => rfl
    | some m =>
      have hbody := Registry.body?_relocate (β := old.shift) code m
      simp only [enterTargets, Option.bind_some, hbody]
      cases code.body? m with
      | none => rfl
      | some root => exact (congrArg (enterTargets _ _ · _) (enter_after old s m root)).trans (ih _)

theorem enterCallee_after (callee : Option MemberId) :
    (s.after old).enterCallee (code.relocate old.shift) callee =
      (s.enterCallee code callee).after old := by
  cases callee with
  | none => rfl
  | some m =>
    simp only [enterCallee, Option.bind_some, Registry.find_relocate]
    cases code.find m with
    | none => rfl
    | some root => exact enter_after old s m root

theorem recordCall_after (c : Call) :
    (s.after old).recordCall (code.relocate old.shift) (f.rename id old.shift) c =
      resultAfter old (s.recordCall code f c) := by
  unfold recordCall
  split
  · rfl
  · rw [enterCallee_after]
    rfl
  · exact enterTargets_after old code s f _

theorem record_after (i : Instruction) :
    (s.after old).record (code.relocate old.shift) (f.rename id old.shift)
        (i.relocate old.shiftCall) =
      resultAfter old (s.record code f i) := by
  cases i with
  | getField m | putField m =>
    exact congrArg (·, none) (reach_after old s m)
  | call site =>
    have hcall : (s.after old).graph.calls[old.shiftCall site]? = s.graph.calls[site]? :=
      Graph.getElem?_calls_after old s.graph site
    simp only [Instruction.relocate, record, hcall]
    cases s.graph.calls[site]? with
    | none => rfl
    | some c => exact recordCall_after old code s f c
  | _ => rfl

theorem recordAll_after (is : List Instruction) :
    (s.after old).recordAll (code.relocate old.shift) (f.rename id old.shift)
        (is.map (Instruction.relocate old.shiftCall)) =
      resultAfter old (s.recordAll code f is) := by
  induction is generalizing s with
  | nil => rfl
  | cons i is ih =>
    rw [List.map_cons, recordAll, recordAll, record_after]
    rcases s.record code f i with ⟨s', _ | failure⟩
    · exact ih s'
    · rfl

theorem kept_after (g : Graph) (succs : List (Option BlockRef)) :
    kept (old.after g) (succs.map (·.map old.shift)) =
      (kept g succs).map (List.map old.shift) := by
  induction succs with
  | nil => rfl
  | cons q succs ih =>
    cases q with
    | none => rfl
    | some r =>
      have hleaf : ((old.after g).blocks[old.shift r]?).any Block.isDeadLeaf =
          (g.blocks[r]?).any Block.isDeadLeaf := by
        rw [Graph.getElem?_blocks_after]
        cases g.blocks[r]? with
        | none => rfl
        | some b => exact b.isDeadLeaf_relocate
      simp only [List.map_cons, Option.map_some, kept, ih, hleaf, Option.map_map]
      refine congrArg (Option.map · _) (funext fun rs => ?_)
      simp only [Function.comp_apply]
      split <;> rfl

theorem mark_after (r : BlockRef) :
    (s.after old).mark (old.shift r) = (s.mark r).after old := by
  rw [mark, mark, after, Graph.seenAfter_set]
  rfl

theorem keep_after (r : BlockRef) (b : Block) (succs : List BlockRef) :
    (s.after old).keep (old.shift r) (b.relocate old.shift old.shiftCall) (succs.map old.shift) =
      (s.keep r b succs).after old := by
  rw [keep, keep, after, after, ← Graph.setBlock_after]
  simp [Block.relocate]

theorem proceed_after (succs : List BlockRef) (is : List Instruction) :
    (s.after old).proceed (code.relocate old.shift) (f.rename id old.shift) (succs.map old.shift)
        (is.map (Instruction.relocate old.shiftCall)) =
      resultAfter old (s.proceed code f succs is) := by
  rw [proceed, proceed, recordAll_after]
  rcases s.recordAll code f is with ⟨s', _ | failure⟩
  · simp [resultAfter, schedule, after, Frame.rename]
  · rfl

theorem visit_after (r : BlockRef) (b : Block) :
    visit (code.relocate old.shift) (s.after old) (f.rename id old.shift) (old.shift r)
        (b.relocate old.shift old.shiftCall) =
      resultAfter old (visit code s f r b) := by
  have hempty : (b.relocate old.shift old.shiftCall).code.isEmpty = b.code.isEmpty := by
    simp [Block.relocate]
  have hkept : kept (s.after old).graph (b.relocate old.shift old.shiftCall).succs =
      (kept s.graph b.succs).map (List.map old.shift) := kept_after old s.graph b.succs
  rw [visit_eq, visit_eq, hempty, hkept, mark_after]
  split
  · rfl
  · cases kept s.graph b.succs with
    | none => rfl
    | some succs =>
      simp only [Option.map_some, keep_after]
      exact proceed_after old code _ f succs b.code

theorem step_after :
    (s.after old).step (code.relocate old.shift) = (s.step code).map (resultAfter old) := by
  have hdrop : (s.after old).stack.dropWhile (s.after old).isSeen =
      (s.stack.dropWhile s.isSeen).map (Frame.rename id old.shift) :=
    dropWhile_map_of_eq fun f _ => isSeen_after old s f
  unfold step
  rw [hdrop]
  cases s.stack.dropWhile s.isSeen with
  | nil => rfl
  | cons f stack =>
    obtain ⟨_ | r, m⟩ := f
    · rfl
    · have hblock : (s.after old).graph.blocks[old.shift r]? = _ :=
        Graph.getElem?_blocks_after old s.graph r
      simp only [List.map_cons, Frame.rename, Option.map_some, Option.bind_some, hblock]
      cases s.graph.blocks[r]? with
      | none => rfl
      | some b => exact congrArg some (visit_after old code { s with stack } ⟨some r, m⟩ r b)

theorem run_after (steps : Nat) :
    (s.after old).run (code.relocate old.shift) steps = resultAfter old (s.run code steps) := by
  induction steps generalizing s with
  | zero =>
    unfold run
    rw [step_after]
    cases s.step code with
    | none => rfl
    | some x => rfl
  | succ steps ih =>
    unfold run
    rw [step_after]
    rcases s.step code with _ | ⟨s', _ | failure⟩
    · rfl
    · exact ih s'
    · rfl

end

section
variable {code : Registry} {g : Graph} {entry : MemberId} {s : Sweep} {n : Nat}

theorem Sound.run_add (hs : s.Sound code g entry) (hn : g.blocks.size ≤ n + s.count)
    (extra : Nat) : s.run code (n + extra) = s.run code n := by
  induction n generalizing s with
  | zero =>
    cases hstack : s.stack.dropWhile s.isSeen with
    | nil => rw [run_done hstack, run_done hstack]
    | cons f stack =>
      -- as many blocks were processed as there are, so one that is left is not there
      have hlost : f.block.bind (s.graph.blocks[·]?) = none := by
        rw [Option.bind_eq_none_iff]
        intro r hr
        by_contra hb
        obtain ⟨b, hb⟩ := Option.ne_none_iff_exists'.mp hb
        have hnew := not_mem_visited (isSeen_of_dropWhile hstack) hr
        have hlt := hs.count_lt hnew (hs.block hnew hb).2
        omega
      rw [run_lost hstack (.inr hlost), run_lost hstack (.inr hlost)]
  | succ n ih =>
    cases hstack : s.stack.dropWhile s.isSeen with
    | nil => rw [run_done hstack, run_done hstack]
    | cons f stack =>
      cases hlost : f.block.bind (s.graph.blocks[·]?) with
      | none => rw [run_lost hstack (.inr hlost), run_lost hstack (.inr hlost)]
      | some b =>
        obtain ⟨r, hr, hb⟩ := Option.bind_eq_some_iff.mp hlost
        rw [Nat.add_right_comm, run_visit hstack hr hb, run_visit hstack hr hb]
        cases hv : Sweep.visit code { s with stack } f r b with
        | mk s' o =>
          cases o with
          | some e => rfl
          | none =>
            have hframe := mem_of_dropWhile hstack
            have hcount := visit_count hv
            refine ih (hs.visit hframe.1 hframe.2 (isSeen_of_dropWhile hstack) hr hb hv) ?_
            simp only at hcount
            omega

end

end Sweep

namespace Program

/-- A cleanup finds the same members, and fails at the moved block for the same reason. -/
theorem cleanup_after (old g : Graph) (code : Registry) (p : Program) :
    p.cleanup (code.relocate old.shift) (old.after g) =
      ⟨old.after (p.cleanup code g).graph, (p.cleanup code g).program,
        (p.cleanup code g).failure.map (Failure.rename id old.shift)⟩ := by
  have hbody := Registry.body?_relocate (β := old.shift) code p.entry
  cases hroot : code.body? p.entry with
  | none =>
    rw [hroot] at hbody
    rw [cleanup_of_none hroot, cleanup_of_none hbody]
    rfl
  | some root =>
    rw [hroot] at hbody
    have hstart : Sweep.start (old.after g) p.entry (old.shift root) =
        (Sweep.start g p.entry root).after old := by
      simp [Sweep.start, Sweep.after, Graph.unseen_after, Frame.rename]
    have hrun : (Sweep.start (old.after g) p.entry (old.shift root)).run
        (code.relocate old.shift) (old.after g).blocks.size =
          Sweep.resultAfter old ((Sweep.start g p.entry root).run code g.blocks.size) := by
      rw [hstart, Sweep.run_after, Graph.size_blocks_after, Nat.add_comm,
        (Sweep.sound_start hroot).run_add (by simp [Sweep.start])]
    unfold cleanup
    simp only [hroot, hbody, Option.map_some, hrun]
    rcases (Sweep.start g p.entry root).run code g.blocks.size with ⟨s, _ | failure⟩ <;> rfl

theorem create_after (old g : Graph) (code : Registry) (entry : Option MemberId) :
    create (code.relocate old.shift) (old.after g) entry =
      ((create code g entry).1.mapError (Failure.rename id old.shift),
        old.after (create code g entry).2) := by
  cases entry with
  | none => rfl
  | some m =>
    rw [create, create]
    simp only [cleanup_after]
    rcases cleanup code g { entry := m } with ⟨h, p, _ | failure⟩ <;> rfl

end Program

/-- The message of a defect names the block by its identity, which is the same. -/
theorem Defect.message_after (d : Declarations) (old g : Graph) (e : Defect) :
    (e.rename id old.shift).message d (old.after g) = e.message d g := by
  obtain ⟨kind, member, block⟩ := e
  have hkind : kind.rename id = kind := by cases kind <;> rfl
  have hplace : (block.map old.shift).bind ((old.after g).blocks[·]?) =
      (block.bind (g.blocks[·]?)).map (Block.relocate old.shift old.shiftCall) := by
    cases block with
    | none => rfl
    | some r => exact Graph.getElem?_blocks_after old g r
  simp only [message, rename, hkind, hplace, Option.map_id, id]
  cases block.bind (g.blocks[·]?) <;> rfl

end Linkage
