import Linkage.Proofs.Runs
import Linkage.Proofs.Walk

/-!
# Cleanup as a recursive walk

The cleanup keeps a stack of blocks to come to, on which a block may wait any number of times. Here
the same walk is written as a recursion without a stack: a block that was not visited is marked,
checked and pruned, its instructions are recorded, and then the walk goes into the successors that
are left, from the first to the last, and after them into the bodies of the callees, from the last
to the first. Both walks do the same in the same order, up to the first failure
(`Program.cleanup_eq_explore`): what waits on the stack is what the recursion has still to come
back to.
-/

namespace Linkage

structure Exploration where
  graph : Graph
  reachable : List MemberId
  /-- The blocks that were marked, the latest first. -/
  visited : List BlockRef := []
  deriving DecidableEq, Repr

namespace Exploration

def mark (x : Exploration) (r : BlockRef) : Exploration := { x with visited := r :: x.visited }

def prune (x : Exploration) (r : BlockRef) (b : Block) (succs : List (Option BlockRef)) :
    Exploration :=
  { x with graph := x.graph.setBlock r { b with succs } }

def record (x : Exploration) (notes : List Note) : Exploration :=
  { x with reachable := Sweep.noted x.reachable notes }

/-- Processes a block that was not visited, and says where the walk goes from it. -/
def process (code : Registry) (x : Exploration) (f : Frame) (r : BlockRef) (b : Block) :
    Exploration × Except Failure (List Frame) :=
  let x := x.mark r
  if b.code = [] then (x, .error (.defect ⟨.emptyBlock, some f.member, some r⟩))
  else if b.succs.contains none then (x, .error (.defect ⟨.nilSuccessor, some f.member, some r⟩))
  else
    let kept := b.succs.filter x.graph.isLive
    let notes := Note.ofCode code x.graph.calls f b.code
    let x := (x.prune r b kept).record notes.1
    match notes.2 with
    | some e => (x, .error e)
    | none => (x, .ok (kept.map (⟨·, f.member⟩) ++ (notes.1.filterMap Note.frame?).reverse))

def each (walk : Exploration → Frame → Exploration × Option Failure) (x : Exploration) :
    List Frame → Exploration × Option Failure
  | [] => (x, none)
  | f :: rest =>
    match walk x f with
    | (x, none) => each walk x rest
    | (x, some e) => (x, some e)

/-- Walks into a block, unless it was visited before. Every level of the recursion marks a block, so
it goes no deeper than there are blocks. -/
def walk (code : Registry) : (depth : Nat) → Exploration → Frame → Exploration × Option Failure
  | depth, x, f =>
    match f.block with
    | none => (x, some (.fault .absent))
    | some r =>
      if r ∈ x.visited then (x, none)
      else match depth, x.graph.blocks[r]? with
        | depth + 1, some b =>
          match process code x f r b with
          | (x, .ok frames) => each (walk code depth) x frames
          | (x, .error e) => (x, some e)
        | _, _ => (x, some (.fault .absent))

end Exploration

def Program.explore (code : Registry) (g : Graph) (p : Program) (depth : Nat) :
    Exploration × Option Failure :=
  let x : Exploration := { graph := g, reachable := [p.entry] }
  match code.body? p.entry with
  | none => (x, some (.defect { kind := .noEntry, member := some p.entry }))
  | some root => x.walk code depth ⟨some root, p.entry⟩

namespace Sweep

section
variable {code : Registry} {s : Sweep} {f : Frame} {stack : List Frame} {r : BlockRef} {b : Block}
  {n : Nat}

theorem run_done (hstack : s.stack.dropWhile s.isSeen = []) :
    run code n s = ({ s with stack := [] }, none) := by
  unfold run
  simp [step, hstack]

theorem run_lost (hstack : s.stack.dropWhile s.isSeen = f :: stack)
    (hlost : n = 0 ∨ f.block.bind (s.graph.blocks[·]?) = none) :
    run code n s = ({ s with stack := [] }, some (.fault .absent)) := by
  obtain ⟨hnone, -⟩ | ⟨f', stack', hstack', -, hstep⟩ := step_cases code s
  · rw [hstack] at hnone
    cases hnone
  obtain ⟨rfl, rfl⟩ := List.cons.inj (hstack.symm.trans hstack')
  unfold run
  obtain ⟨-, hstep⟩ | ⟨r, b, hr, hb, hstep⟩ := hstep
  · rw [hstep]
    cases n <;> rfl
  · obtain rfl := hlost.resolve_right (by simp [hr, hb])
    rw [hstep]

theorem run_visit (hstack : s.stack.dropWhile s.isSeen = f :: stack) (hr : f.block = some r)
    (hb : s.graph.blocks[r]? = some b) :
    run code (n + 1) s = match visit code { s with stack } f r b with
      | (s', none) => run code n s'
      | (s', some e) => ({ s' with stack := [] }, some e) := by
  conv => lhs; unfold run
  rw [step_of_dropWhile hstack hr hb]
  cases visit code { s with stack } f r b with
  | mk s' o => cases o <;> rfl

theorem run_skip (hseen : s.isSeen f = true) :
    run code n { s with stack := f :: stack } = run code n { s with stack } := by
  have hdrop : (f :: stack).dropWhile s.isSeen = stack.dropWhile s.isSeen := by
    rw [List.dropWhile_cons_of_pos hseen]
  cases hstack : stack.dropWhile s.isSeen with
  | nil =>
    rw [run_done (s := { s with stack }) hstack,
      run_done (s := { s with stack := f :: stack }) (hdrop.trans hstack)]
  | cons f' rest =>
    by_cases hlost : n = 0 ∨ f'.block.bind (s.graph.blocks[·]?) = none
    · rw [run_lost (s := { s with stack }) hstack hlost,
        run_lost (s := { s with stack := f :: stack }) (hdrop.trans hstack) hlost]
    · obtain ⟨hn, hblock⟩ := not_or.mp hlost
      obtain ⟨b, hb⟩ := Option.ne_none_iff_exists'.mp hblock
      obtain ⟨r, hr, hb⟩ := Option.bind_eq_some_iff.mp hb
      obtain ⟨n, rfl⟩ := Nat.exists_eq_succ_of_ne_zero hn
      rw [run_visit (s := { s with stack }) hstack hr hb,
        run_visit (s := { s with stack := f :: stack }) (hdrop.trans hstack) hr hb]

end

end Sweep

namespace Exploration

-- ---------------------------------------------------------------------------
-- What a walk keeps
-- ---------------------------------------------------------------------------

/-- What holds of a walk in a store of `n` blocks: none of them is marked twice. -/
structure Valid (n : Nat) (x : Exploration) : Prop where
  size : x.graph.blocks.size = n
  nodup : x.visited.Nodup
  lt : ∀ r ∈ x.visited, r < n

/-- The walk with a stack at the same point, with these frames on it. -/
def withStack (x : Exploration) (stack : List Frame) : Sweep where
  graph := x.graph
  reachable := x.reachable
  seen := x.visited.foldr (fun r seen => seen.setIfInBounds r true) x.graph.unseen
  count := x.visited.length
  stack

section
variable {code : Registry} {n depth : Nat} {x y : Exploration} {f : Frame} {r : BlockRef}
  {b : Block} {o : Except Failure (List Frame)} {e : Failure} {fs frames stack : List Frame}

theorem Valid.mark (h : x.Valid n) (hr : r ∉ x.visited) (hb : x.graph.blocks[r]? = some b) :
    (x.mark r).Valid n where
  size := h.size
  nodup := List.nodup_cons.mpr ⟨hr, h.nodup⟩
  lt := List.forall_mem_cons.mpr ⟨h.size ▸ (Array.getElem?_eq_some_iff.mp hb).1, h.lt⟩

theorem process_cases (h : process code x f r b = (y, o)) :
    y = x.mark r ∨ ∃ succs notes, y = ((x.mark r).prune r b succs).record notes := by
  simp only [process] at h
  split at h
  · exact .inl (Prod.mk.inj h).1.symm
  split at h
  · exact .inl (Prod.mk.inj h).1.symm
  split at h
  all_goals exact .inr ⟨_, _, (Prod.mk.inj h).1.symm⟩

theorem Valid.of_process (h : x.Valid n) (hr : r ∉ x.visited) (hb : x.graph.blocks[r]? = some b)
    (hp : process code x f r b = (y, o)) : y.Valid n ∧ y.visited = r :: x.visited := by
  have hmark := h.mark hr hb
  obtain rfl | ⟨succs, notes, rfl⟩ := process_cases hp
  · exact ⟨hmark, rfl⟩
  · exact ⟨⟨by simpa [record, prune, Graph.setBlock] using hmark.size, hmark.nodup, hmark.lt⟩, rfl⟩

theorem size_seen (x : Exploration) (stack : List Frame) :
    (x.withStack stack).seen.size = x.graph.blocks.size := by
  simp only [withStack]
  induction x.visited with
  | nil => simp [Graph.unseen]
  | cons r rest ih => simpa using ih

theorem Valid.visited_withStack (h : x.Valid n) (stack : List Frame) :
    (x.withStack stack).visited = { r | r ∈ x.visited } := by
  obtain ⟨g, reachable, visited⟩ := x
  induction visited with
  | nil =>
    have hstart : (Sweep.start g 0 0).visited = ∅ := Sweep.visited_start
    simpa [withStack, Sweep.visited, Sweep.start] using hstart
  | cons r rest ih =>
    have hrest : Valid n ⟨g, reachable, rest⟩ :=
      ⟨h.size, (List.nodup_cons.mp h.nodup).2, fun q hq => h.lt q (List.mem_cons_of_mem r hq)⟩
    have hr : r < (withStack ⟨g, reachable, rest⟩ stack).seen.size := by
      rw [size_seen]
      exact h.size.symm ▸ h.lt r List.mem_cons_self
    have hmark := Sweep.visited_mark hr
    rw [ih hrest] at hmark
    ext q
    simpa [Sweep.visited, Sweep.mark, withStack] using Set.ext_iff.mp hmark q

theorem Valid.isSeen_iff (h : x.Valid n) (hr : f.block = some r) :
    (x.withStack stack).isSeen f = true ↔ r ∈ x.visited := by
  rw [Sweep.isSeen_iff hr, h.visited_withStack]
  rfl

def failure? : Except Failure (List Frame) → Option Failure
  | .ok _ => none
  | .error e => some e

theorem unseen_setBlock (g : Graph) (r : BlockRef) (b : Block) :
    (g.setBlock r b).unseen = g.unseen := by
  simp [Graph.unseen, Graph.setBlock]

theorem visit_withStack (h : process code x f r b = (y, o)) (stack : List Frame) :
    ∃ stack', Sweep.visit code (x.withStack stack) f r b =
        (y.withStack stack', failure? o) ∧
      ∀ frames, o = .ok frames → stack' = frames ++ stack := by
  simp only [process, List.contains_iff_mem] at h
  unfold Sweep.visit
  split_ifs at h with hcode hnil
  · obtain ⟨rfl, rfl⟩ := Prod.mk.inj h
    refine ⟨stack, ?_, nofun⟩
    simp only [hcode, List.isEmpty_nil, ↓reduceIte]
    rfl
  · obtain ⟨rfl, rfl⟩ := Prod.mk.inj h
    have hkept : Sweep.kept (x.withStack stack).graph b.succs = none :=
      Sweep.kept_eq_none.mpr hnil
    refine ⟨stack, ?_, nofun⟩
    simp only [List.isEmpty_iff, hcode, hkept, ↓reduceIte]
    rfl
  obtain ⟨rs, hkept⟩ := Option.ne_none_iff_exists'.mp
    (mt (Sweep.kept_eq_none (g := (x.withStack stack).graph)).mp hnil)
  have hrs : rs.map some = b.succs.filter (x.mark r).graph.isLive := Sweep.kept_eq_some hkept
  have hframes : rs.map (fun r => (⟨some r, f.member⟩ : Frame)) =
      (b.succs.filter (x.mark r).graph.isLive).map (⟨·, f.member⟩) := by
    rw [← hrs, List.map_map]
    rfl
  have hcalls : ∀ b', ((x.withStack stack).graph.setBlock r b').calls = (x.mark r).graph.calls :=
    fun _ => rfl
  simp only [List.isEmpty_iff, hcode, hkept, hrs, hframes, hcalls, Sweep.recordAll_eq,
    Sweep.noteAll_noted, ↓reduceIte]
  cases hnotes : (Note.ofCode code (x.mark r).graph.calls f b.code).2 with
  | some e =>
    rw [hnotes] at h
    obtain ⟨rfl, rfl⟩ := Prod.mk.inj h
    refine ⟨((Note.ofCode code x.graph.calls f b.code).1.filterMap Note.frame?).reverse ++ stack,
      ?_, nofun⟩
    simp only [withStack, record, prune, unseen_setBlock]
    rfl
  | none =>
    rw [hnotes] at h
    obtain ⟨rfl, rfl⟩ := Prod.mk.inj h
    refine ⟨_, ?_, fun _ hframes => by rw [← Except.ok.inj hframes]⟩
    simp only [withStack, record, prune, unseen_setBlock, List.append_assoc]
    rfl

def resume (code : Registry) (n : Nat) (stack : List Frame) :
    Exploration × Option Failure → Sweep × Option Failure
  | (x, none) => Sweep.run code (n - x.visited.length) (x.withStack stack)
  | (x, some e) => (x.withStack [], some e)

/-- The walk with a stack comes from these frames to what waits under them with this result. -/
structure Follows (code : Registry) (n : Nat) (x : Exploration) (frames stack : List Frame)
    (result : Exploration × Option Failure) : Prop where
  valid : result.1.Valid n
  length : x.visited.length ≤ result.1.visited.length
  run : Sweep.run code (n - x.visited.length) (x.withStack (frames ++ stack)) =
    resume code n stack result

theorem Follows.trans {result : Exploration × Option Failure}
    (h : Follows code n x [f] (fs ++ stack) (y, none)) (h' : Follows code n y fs stack result) :
    Follows code n x (f :: fs) stack result :=
  ⟨h'.valid, h.length.trans h'.length, h.run.trans h'.run⟩

theorem Follows.each {walk : Exploration → Frame → Exploration × Option Failure}
    (hwalk : ∀ y f stack, y.Valid n → x.visited.length ≤ y.visited.length →
      Follows code n y [f] stack (walk y f))
    (h : x.Valid n) : Follows code n x fs stack (Exploration.each walk x fs) := by
  induction fs generalizing x with
  | nil => exact ⟨h, le_rfl, rfl⟩
  | cons f rest ih =>
    have hfirst := hwalk x f (rest ++ stack) h le_rfl
    rw [Exploration.each]
    cases hf : walk x f with
    | mk y o =>
      rw [hf] at hfirst
      cases o with
      | none =>
        refine hfirst.trans (ih (fun z f stack hz hle => ?_) hfirst.valid)
        exact hwalk z f stack hz (hfirst.length.trans hle)
      | some e => exact ⟨hfirst.valid, hfirst.length, hfirst.run⟩

theorem Valid.follows_seen (h : x.Valid n) (hr : f.block = some r) (hseen : r ∈ x.visited) :
    Follows code n x [f] stack (x, none) :=
  ⟨h, le_rfl, Sweep.run_skip (s := x.withStack stack) ((h.isSeen_iff hr).mpr hseen)⟩

theorem Valid.dropWhile_eq (h : x.Valid n) (hnew : ∀ r, f.block = some r → r ∉ x.visited) :
    (x.withStack (f :: stack)).stack.dropWhile (x.withStack (f :: stack)).isSeen = f :: stack := by
  refine List.dropWhile_cons_of_neg ?_
  cases hr : f.block with
  | none => simp [Sweep.isSeen, hr]
  | some r => exact mt (h.isSeen_iff hr).mp (hnew r hr)

theorem Valid.follows_lost (h : x.Valid n) (hnew : ∀ r, f.block = some r → r ∉ x.visited)
    (hlost : f.block.bind (x.graph.blocks[·]?) = none) :
    Follows code n x [f] stack (x, some (.fault .absent)) :=
  ⟨h, le_rfl, Sweep.run_lost (h.dropWhile_eq hnew) (.inr hlost)⟩

theorem Valid.length_lt (h : x.Valid n) (hr : r ∉ x.visited) (hlt : r < n) :
    x.visited.length < n :=
  Nat.lt_of_not_le fun hle => hr (Graph.mem_of_length_le h.nodup h.lt hle hlt)

theorem Valid.follows_process (h : x.Valid n) (hr : f.block = some r) (hnew : r ∉ x.visited)
    (hb : x.graph.blocks[r]? = some b) {walk : Exploration → Frame → Exploration × Option Failure}
    (hwalk : ∀ y f stack, y.Valid n → x.visited.length < y.visited.length →
      Follows code n y [f] stack (walk y f)) :
    Follows code n x [f] stack (match process code x f r b with
      | (y, .ok frames) => Exploration.each walk y frames
      | (y, .error e) => (y, some e)) := by
  have hlt := h.length_lt hnew (h.size ▸ (Array.getElem?_eq_some_iff.mp hb).1)
  obtain ⟨k, hk⟩ : ∃ k, n - x.visited.length = k + 1 := ⟨n - x.visited.length - 1, by omega⟩
  have hrun : Sweep.run code (k + 1) (x.withStack (f :: stack)) = _ := Sweep.run_visit
    (h.dropWhile_eq fun q hq => Option.some.inj (hr.symm.trans hq) ▸ hnew) hr hb
  cases hp : process code x f r b with
  | mk y o =>
    obtain ⟨hy, hvisited⟩ := h.of_process hnew hb hp
    have hlen : y.visited.length = x.visited.length + 1 := by rw [hvisited]; rfl
    obtain ⟨stack', hvisit, hstack'⟩ := visit_withStack hp stack
    have hvisit' : Sweep.visit code { x.withStack (f :: stack) with stack } f r b =
        (y.withStack stack', failure? o) := hvisit
    rw [hvisit', ← hk] at hrun
    cases o with
    | error e => exact ⟨hy, by simp only; omega, hrun⟩
    | ok frames =>
      obtain rfl := hstack' frames rfl
      have heach : Follows code n y frames stack (Exploration.each walk y frames) :=
        .each (fun z f stack hz hle => hwalk z f stack hz (by omega)) hy
      refine ⟨heach.valid, by have := heach.length; simp only; omega, hrun.trans ?_⟩
      obtain rfl : k = n - y.visited.length := by omega
      exact heach.run

theorem Valid.follows_walk (h : x.Valid n) (hn : n ≤ depth + x.visited.length) :
    Follows code n x [f] stack (walk code depth x f) := by
  induction depth generalizing x f stack with
  | zero =>
    unfold walk
    cases hr : f.block with
    | none => exact h.follows_lost (by simp [hr]) (by simp [hr])
    | some r =>
      by_cases hseen : r ∈ x.visited
      · simp only [hseen, ↓reduceIte]
        exact h.follows_seen hr hseen
      · simp only [hseen, ↓reduceIte]
        -- as many blocks were visited as there are, so this one is not there
        refine h.follows_lost (by simp [hr, hseen]) ?_
        rw [hr, Option.bind_some, Array.getElem?_eq_none_iff]
        exact Nat.le_of_not_lt fun hlt => by
          have := h.length_lt hseen (h.size ▸ hlt)
          omega
  | succ depth ih =>
    unfold walk
    cases hr : f.block with
    | none => exact h.follows_lost (by simp [hr]) (by simp [hr])
    | some r =>
      by_cases hseen : r ∈ x.visited
      · simp only [hseen, ↓reduceIte]
        exact h.follows_seen hr hseen
      · simp only [hseen, ↓reduceIte]
        cases hb : x.graph.blocks[r]? with
        | none => exact h.follows_lost (by simp [hr, hseen]) (by simp [hr, hb])
        | some b => exact h.follows_process hr hseen hb fun y f stack hy hlt => ih hy (by omega)

end

end Exploration

namespace Program

theorem sweep_eq_explore (g : Graph) (p : Program) {code : Registry} {root : BlockRef}
    {depth : Nat} (hroot : code.body? p.entry = some root) (hdepth : g.blocks.size ≤ depth) :
    (p.explore code g depth).1.Valid g.blocks.size ∧
      p.sweep code g root =
        ((p.explore code g depth).1.withStack [], (p.explore code g depth).2) := by
  have hvalid : Exploration.Valid g.blocks.size { graph := g, reachable := [p.entry] } :=
    ⟨rfl, List.nodup_nil, nofun⟩
  have hwalk : Exploration.Follows code g.blocks.size _ [⟨some root, p.entry⟩] []
    (Exploration.walk code depth _ _) := hvalid.follows_walk hdepth
  simp only [explore, hroot]
  refine ⟨hwalk.valid, hwalk.run.trans ?_⟩
  cases Exploration.walk code depth _ _ with
  | mk y o =>
    cases o with
    | none => exact Sweep.run_done rfl
    | some e => rfl

/-- A cleanup leaves the same graph, finds the same members in the same order, visits the same
blocks and fails in the same way as the recursive walk, whatever depth that is given beyond the
number of blocks. -/
theorem cleanup_eq_explore (code : Registry) (g : Graph) (p : Program) (more : Nat) :
    let found := p.explore code g (g.blocks.size + more)
    let cleaned := p.cleanup code g
    cleaned.graph = found.1.graph ∧ cleaned.program.reachable = found.1.reachable ∧
      (∀ r, p.Visits code g r ↔ r ∈ found.1.visited) ∧
      cleaned.program.visited = (if found.2 = none then found.1.visited.length else 0) ∧
      cleaned.failure = found.2 := by
  intro found cleaned
  cases hroot : code.body? p.entry with
  | none =>
    have hfound : found = (⟨g, [p.entry], []⟩,
        some (.defect { kind := .noEntry, member := some p.entry })) := by
      simp only [found, explore, hroot]
    have hcleaned : cleaned = _ := cleanup_of_none hroot
    rw [hfound, hcleaned]
    refine ⟨rfl, rfl, fun r => ?_, rfl, rfl⟩
    simp [Visits, hroot]
  | some root =>
    obtain ⟨hvalid, hsweep⟩ := sweep_eq_explore g p hroot (Nat.le_add_right g.blocks.size more)
    have hcleaned : cleaned = _ := cleanup_of_some hroot
    rw [hcleaned, hsweep]
    refine ⟨rfl, rfl, fun r => ?_, rfl, rfl⟩
    rw [visits_iff hroot, hsweep, hvalid.visited_withStack]
    rfl

/-- The callee comes last, after both successors that are left. -/
example : (explore loopCode loopGraph { entry := 0 } 5).1.visited = [3, 4, 1, 0] := by decide

end Program

end Linkage
