import Linkage.Proofs.Portable
import Linkage.Proofs.Runs

/-!
# Walks under other numbers

A walk sees of a program only which blocks follow which, what their instructions note, and which
members and blocks are the same. So two walks of programs that agree in this under a renaming of
members and blocks go in step: they find the same members in the same order, process as many blocks,
and fail at the same block for the same reason.
-/

namespace Linkage

-- ---------------------------------------------------------------------------
-- Notes under other numbers
-- ---------------------------------------------------------------------------

section
variable (μ : MemberId → MemberId) (β : BlockRef → BlockRef)

def Frame.rename (f : Frame) : Frame := ⟨f.block.map β, μ f.member⟩

def Note.rename (n : Note) : Note := ⟨μ n.member, n.body.map (·.map β)⟩

def DefectKind.rename : DefectKind → DefectKind
  | .missingCode caller => .missingCode (μ caller)
  | kind => kind

def Defect.rename (e : Defect) : Defect := ⟨e.kind.rename μ, e.member.map μ, e.block.map β⟩

def Failure.rename : Failure → Failure
  | .defect e => .defect (e.rename μ β)
  | .fault f => .fault f

def Note.renameAll (x : List Note × Option Failure) : List Note × Option Failure :=
  (x.1.map (rename μ β), x.2.map (Failure.rename μ β))

end

/-- The members whose registration decides what a call enters. -/
inductive Call.Asks (c : Call) : MemberId → Prop
  | target {ts m} : c.targets = some ts → some m ∈ ts → Asks c m
  | callee {m} : c.targets = some [] → c.callee = some m → Asks c m

def Registry.SameBody (μ : MemberId → MemberId) (β : BlockRef → BlockRef) (code code' : Registry)
    (m : MemberId) : Prop :=
  code'.find (μ m) = (code.find m).map (·.map β)

theorem Registry.SameBody.body? {code code' : Registry} (h : code.SameBody μ β code' m) :
    code'.body? (μ m) = (code.body? m).map β := by
  rw [Registry.body?, h, Registry.body?]
  cases code.find m with
  | none => rfl
  | some root => rfl

namespace Note

section
variable {κ : ClassId → ClassId} {μ : MemberId → MemberId} {β : BlockRef → BlockRef}
  {code code' : Registry} {calls calls' : Array Call} {f : Frame}

theorem ofTargets_rename (h : ∀ m, some m ∈ ts → code.SameBody μ β code' m) :
    ofTargets code' (f.rename μ β) (ts.map (·.map μ)) = renameAll μ β (ofTargets code f ts) := by
  induction ts with
  | nil => rfl
  | cons target ts ih =>
    cases target with
    | none => rfl
    | some m =>
      have hbody := (h m (by simp)).body?
      cases hm : code.body? m with
      | none =>
        rw [hm] at hbody
        simp [ofTargets, hm, hbody, renameAll, Failure.rename, Defect.rename, DefectKind.rename,
          Frame.rename]
      | some root =>
        rw [hm] at hbody
        have ih := ih fun m hm => h m (List.mem_cons_of_mem _ hm)
        simp [ofTargets, hm, hbody, ih, renameAll, rename]

theorem ofCall_rename {c : Call} (h : ∀ m, c.Asks m → code.SameBody μ β code' m) :
    ofCall code' (f.rename μ β) (c.rename μ) = renameAll μ β (ofCall code f c) := by
  cases hts : c.targets with
  | none =>
    simp [ofCall, hts, Call.rename, renameAll, Failure.rename, Defect.rename, DefectKind.rename,
      Frame.rename]
  | some ts =>
    cases ts with
    | nil =>
      cases hcallee : c.callee with
      | none => simp [ofCall, hts, Call.rename, renameAll, ofCallee, hcallee]
      | some m =>
        have hfind : code'.find (μ m) = _ := h m (.callee hts hcallee)
        cases hm : code.find m <;>
          simp [ofCall, hts, Call.rename, renameAll, ofCallee, hcallee, hfind, hm, rename]
    | cons target ts =>
      have htargets := ofTargets_rename (f := f) fun m hm => h m (.target hts hm)
      simpa [ofCall, hts, Call.rename] using htargets

theorem ofInstruction_rename {i i' : Instruction} (hi : i.Matches κ μ calls calls' i')
    (h : ∀ site c m, i = .call site → calls[site]? = some c → c.Asks m →
      code.SameBody μ β code' m) :
    ofInstruction code' calls' (f.rename μ β) i' =
      renameAll μ β (ofInstruction code calls f i) := by
  cases hi with
  | plain hs => cases i <;> first | rfl | simp [Instruction.site?] at hs
  | call hc hc' =>
    simp only [ofInstruction, hc, hc']
    exact ofCall_rename fun m hm => h _ _ m rfl hc hm

theorem ofCode_rename {is is' : List Instruction}
    (hcode : List.Forall₂ (Instruction.Matches κ μ calls calls') is is')
    (h : ∀ site c m, .call site ∈ is → calls[site]? = some c → c.Asks m →
      code.SameBody μ β code' m) :
    ofCode code' calls' (f.rename μ β) is' = renameAll μ β (ofCode code calls f is) := by
  induction hcode with
  | nil => rfl
  | @cons i i' is is' hi _ ih =>
    have hfirst : ofInstruction code' calls' (f.rename μ β) i' =
        renameAll μ β (ofInstruction code calls f i) :=
      ofInstruction_rename hi fun site c m heq => h site c m (by simp [heq])
    have ih := ih fun site c m hmem => h site c m (List.mem_cons_of_mem _ hmem)
    simp only [ofCode, hfirst, ih]
    cases hnotes : ofInstruction code calls f i with
    | mk notes failure => cases failure <;> simp [renameAll]

end

end Note

-- ---------------------------------------------------------------------------
-- Graphs under other numbers
-- ---------------------------------------------------------------------------

section
variable (μ : MemberId → MemberId) (β : BlockRef → BlockRef) (M : Set MemberId) (B : Set BlockRef)
  (code code' : Registry)

/-- Two blocks that are the same to a walk: the second one is met where the first one is. -/
structure Block.Mirrors (calls calls' : Array Call) (r : BlockRef) (b b' : Block) : Prop where
  succs : b'.succs = b.succs.map (·.map β)
  empty : b'.code = [] ↔ b.code = []
  placeholder : b'.code = [.nop] ↔ b.code = [.nop]
  notes : ∀ m ∈ M, Note.ofCode code' calls' ⟨some (β r), μ m⟩ b'.code =
    Note.renameAll μ β (Note.ofCode code calls ⟨some r, m⟩ b.code)

/-- Two graphs that are the same to a walk on blocks and members that lead to no others. -/
structure Graph.Mirrors (g g' : Graph) : Prop where
  block : ∀ r ∈ B, ∃ b b', g.blocks[r]? = some b ∧ g'.blocks[β r]? = some b' ∧
    Block.Mirrors μ β M code code' g.calls g'.calls r b b'
  succs : ∀ r ∈ B, ∀ q, g.Edge r q → q ∈ B
  notes : ∀ r ∈ B, ∀ b, g.blocks[r]? = some b → ∀ m ∈ M,
    ∀ n ∈ (Note.ofCode code g.calls ⟨some r, m⟩ b.code).1,
      n.member ∈ M ∧ ∀ q, n.body = some (some q) → q ∈ B

structure Sweep.Mirrors (s s' : Sweep) : Prop where
  graph : Graph.Mirrors μ β M B code code' s.graph s'.graph
  reachable : s'.reachable = s.reachable.map μ
  stack : s'.stack = s.stack.map (Frame.rename μ β)
  count : s'.count = s.count
  visited : ∀ r ∈ B, (β r ∈ s'.visited ↔ r ∈ s.visited)
  members : ∀ m ∈ s.reachable, m ∈ M
  frames : ∀ f ∈ s.stack, f.member ∈ M ∧ ∀ r, f.block = some r → r ∈ B

end

section
variable {μ : MemberId → MemberId} {β : BlockRef → BlockRef} {M : Set MemberId} {B : Set BlockRef}
  {code code' : Registry} {g g' : Graph} {r q : BlockRef} {b b' : Block}

theorem Block.Mirrors.isDeadLeaf {calls calls' : Array Call}
    (h : Block.Mirrors μ β M code code' calls calls' r b b') : b'.isDeadLeaf = b.isDeadLeaf := by
  rw [Bool.eq_iff_iff, Block.isDeadLeaf_iff, Block.isDeadLeaf_iff, h.placeholder, h.succs,
    List.map_eq_nil_iff]

theorem Graph.Mirrors.isLive (h : Graph.Mirrors μ β M B code code' g g') (hq : q ∈ B) :
    g'.isLive (some (β q)) = g.isLive (some q) := by
  obtain ⟨b, b', hb, hb', hblock⟩ := h.block q hq
  simp [Graph.isLive, hb, hb', hblock.isDeadLeaf]

theorem Graph.Mirrors.filter_succs (h : Graph.Mirrors μ β M B code code' g g') (hr : r ∈ B)
    (hb : g.blocks[r]? = some b) (hsuccs : b'.succs = b.succs.map (·.map β)) :
    b'.succs.filter g'.isLive = (b.succs.filter g.isLive).map (·.map β) := by
  rw [hsuccs, List.filter_map]
  refine congrArg (List.map _) (List.filter_congr fun q hq => ?_)
  cases q with
  | none => rfl
  | some q => exact h.isLive (h.succs r hr q ⟨b, hb, hq⟩)

theorem Graph.Mirrors.setBlock (h : Graph.Mirrors μ β M B code code' g g') (hβ : Set.InjOn β B)
    (hr : r ∈ B) (hb : g.blocks[r]? = some b) (hb' : g'.blocks[β r]? = some b')
    (hm : Block.Mirrors μ β M code code' g.calls g'.calls r b b') :
    Graph.Mirrors μ β M B code code'
      (g.setBlock r { b with succs := b.succs.filter g.isLive })
      (g'.setBlock (β r) { b' with succs := b'.succs.filter g'.isLive }) := by
  have hlt := (Array.getElem?_eq_some_iff.mp hb).1
  have hlt' := (Array.getElem?_eq_some_iff.mp hb').1
  have hpruned : g.PrunedTo (g.setBlock r { b with succs := b.succs.filter g.isLive }) {r} := by
    simpa using PrunedTo.refl.step hb (Set.notMem_empty r) g.isLive
      fun q _ hq => Graph.deadLeaf_of_not_isLive hq
  refine ⟨fun q hq => ?_, fun q hq t hedge => ?_, fun q hq c hc m hm n hn => ?_⟩
  · by_cases hrq : r = q
    · subst hrq
      refine ⟨_, _, by rw [getElem?_setBlock, if_pos rfl, if_pos hlt],
        by rw [getElem?_setBlock, if_pos rfl, if_pos hlt'], ?_⟩
      exact ⟨h.filter_succs hr hb hm.succs, hm.empty, hm.placeholder, hm.notes⟩
    · have hne : β r ≠ β q := fun heq => hrq (hβ hr hq heq)
      rw [getElem?_setBlock, if_neg hrq, getElem?_setBlock, if_neg hne]
      exact h.block q hq
  · obtain ⟨c, hc, ht⟩ := hedge
    obtain ⟨c₀, hc₀, -, hsub, -⟩ := hpruned.origin hc
    exact h.succs q hq t ⟨c₀, hc₀, hsub.subset ht⟩
  · obtain ⟨c₀, hc₀, hcode, -, -⟩ := hpruned.origin hc
    rw [hcode] at hn
    exact h.notes q hq c₀ hc₀ m hm n hn

-- ---------------------------------------------------------------------------
-- Walks in step
-- ---------------------------------------------------------------------------

namespace Sweep

theorem dropWhile_map_of_eq {p : γ → Bool} {p' : α → Bool} {φ : α → γ} {xs : List α}
    (h : ∀ x ∈ xs, p (φ x) = p' x) : (xs.map φ).dropWhile p = (xs.dropWhile p').map φ := by
  induction xs with
  | nil => rfl
  | cons x xs ih =>
    have ih := ih fun y hy => h y (List.mem_cons_of_mem _ hy)
    rw [List.map_cons, List.dropWhile_cons, List.dropWhile_cons, h x List.mem_cons_self, ih]
    split <;> rfl

theorem noted_rename {ms : List MemberId} {notes : List Note} (hμ : Set.InjOn μ M)
    (hms : ∀ m ∈ ms, m ∈ M) (hnotes : ∀ n ∈ notes, n.member ∈ M) :
    noted (ms.map μ) (notes.map (Note.rename μ β)) = (noted ms notes).map μ ∧
      ∀ m ∈ noted ms notes, m ∈ M := by
  induction notes generalizing ms with
  | nil => exact ⟨rfl, hms⟩
  | cons n notes ih =>
    have hn := hnotes n List.mem_cons_self
    have hmem : μ n.member ∈ ms.map μ ↔ n.member ∈ ms := by
      refine ⟨fun h => ?_, List.mem_map_of_mem⟩
      obtain ⟨m, hm, heq⟩ := List.mem_map.mp h
      rwa [← hμ (hms m hm) hn heq]
    have hmore : ∀ m ∈ (if n.member ∈ ms then ms else ms ++ [n.member]), m ∈ M := by
      intro m hm
      split at hm
      · exact hms m hm
      · rcases List.mem_append.mp hm with hm | hm
        · exact hms m hm
        · rwa [List.mem_singleton.mp hm]
    have hrest := ih hmore fun n hn => hnotes n (List.mem_cons_of_mem _ hn)
    refine ⟨Eq.trans ?_ hrest.1, hrest.2⟩
    show noted (if μ n.member ∈ ms.map μ then ms.map μ else ms.map μ ++ [μ n.member]) _ = _
    simp only [hmem]
    split <;> simp

variable {s s' : Sweep} {f : Frame} {stack : List Frame}

theorem Mirrors.isSeen (h : s.Mirrors μ β M B code code' s') (hf : ∀ r, f.block = some r → r ∈ B) :
    s'.isSeen (f.rename μ β) = s.isSeen f := by
  cases hr : f.block with
  | none => simp [Sweep.isSeen, Frame.rename, hr]
  | some r =>
    rw [Bool.eq_iff_iff, isSeen_iff (f := f.rename μ β) (by rw [Frame.rename, hr]; rfl),
      isSeen_iff hr, h.visited r (hf r hr)]

theorem Mirrors.dropWhile (h : s.Mirrors μ β M B code code' s') :
    s'.stack.dropWhile s'.isSeen = (s.stack.dropWhile s.isSeen).map (Frame.rename μ β) := by
  rw [h.stack]
  exact dropWhile_map_of_eq fun f hf => h.isSeen (h.frames f hf).2

theorem ofCode_mirror {calls calls' : Array Call}
    (hm : Block.Mirrors μ β M code code' calls calls' r b b') (hr : f.block = some r)
    (hf : f.member ∈ M) :
    Note.ofCode code' calls' (f.rename μ β) b'.code =
      Note.renameAll μ β (Note.ofCode code calls f b.code) := by
  obtain ⟨block, m⟩ := f
  obtain rfl : block = some r := hr
  exact hm.notes m hf

theorem verdict_mirror {calls calls' : Array Call}
    (hm : Block.Mirrors μ β M code code' calls calls' r b b') (hr : f.block = some r)
    (hf : f.member ∈ M) :
    verdict code' calls' (f.rename μ β) (β r) b' =
      (verdict code calls f r b).map (Failure.rename μ β) := by
  have hnil : none ∈ b'.succs ↔ none ∈ b.succs := by simp [hm.succs]
  unfold verdict
  simp only [hm.empty, List.contains_iff_mem, hnil, ofCode_mirror hm hr hf]
  split
  · rfl
  · split <;> rfl

theorem frames_mirror (h : Graph.Mirrors μ β M B code code' g g') (hB : r ∈ B)
    (hb : g.blocks[r]? = some b) (hm : Block.Mirrors μ β M code code' g.calls g'.calls r b b')
    (hr : f.block = some r) (hf : f.member ∈ M) :
    frames code' g' (f.rename μ β) b' = (frames code g f b).map (Frame.rename μ β) := by
  have hframe : ∀ n, (Note.rename μ β n).frame? = n.frame?.map (Frame.rename μ β) := by
    rintro ⟨m, body⟩
    cases body <;> rfl
  rw [frames, frames, h.filter_succs hB hb hm.succs, ofCode_mirror hm hr hf]
  simp [Note.renameAll, Frame.rename, List.filterMap_map, List.map_filterMap, Function.comp_def,
    hframe]

theorem mem_frames (h : Graph.Mirrors μ β M B code code' g g') (hB : r ∈ B)
    (hb : g.blocks[r]? = some b) (hr : f.block = some r) (hf : f.member ∈ M)
    (hf' : f' ∈ frames code g f b) : f'.member ∈ M ∧ ∀ q, f'.block = some q → q ∈ B := by
  rcases List.mem_append.mp hf' with hf' | hf'
  · obtain ⟨q, hq, rfl⟩ := List.mem_map.mp hf'
    refine ⟨hf, fun t ht => h.succs r hB t ⟨b, hb, ?_⟩⟩
    obtain rfl : q = some t := ht
    exact List.mem_of_mem_filter hq
  · obtain ⟨⟨m, body⟩, hn, hframe⟩ := List.mem_filterMap.mp (List.mem_reverse.mp hf')
    obtain ⟨root, rfl, rfl⟩ := Option.map_eq_some_iff.mp hframe
    obtain ⟨block, m'⟩ := f
    obtain rfl : block = some r := hr
    obtain ⟨hmem, hbody⟩ := h.notes r hB b hb m' hf _ hn
    exact ⟨hmem, fun q hq => hbody q (congrArg some hq)⟩

theorem Mirrors.next (h : s.Mirrors μ β M B code code' s') (hμ : Set.InjOn μ M)
    (hβ : Set.InjOn β B) (hstack : s.stack.dropWhile s.isSeen = f :: stack) (hr : f.block = some r)
    (hb : s.graph.blocks[r]? = some b) (hb' : s'.graph.blocks[β r]? = some b')
    (hm : Block.Mirrors μ β M code code' s.graph.calls s'.graph.calls r b b')
    (hlt : r < s.seen.size) (hlt' : β r < s'.seen.size) :
    (s.next code f stack r b).Mirrors μ β M B code code'
      (s'.next code' (f.rename μ β) (stack.map (Frame.rename μ β)) (β r) b') := by
  obtain ⟨hfM, hfB⟩ := h.frames f (mem_of_dropWhile hstack).1
  have hB := hfB r hr
  have hnoted := noted_rename (β := β) hμ h.members fun n hn =>
    (h.graph.notes r hB b hb f.member hfM n (by rwa [← hr])).1
  refine ⟨h.graph.setBlock hβ hB hb hb' hm, ?_, ?_, ?_, fun q hq => ?_, hnoted.2, fun f' hf' => ?_⟩
  · simp only [Sweep.next, ofCode_mirror hm hr hfM, h.reachable]
    exact hnoted.1
  · simp only [Sweep.next, List.map_append, frames_mirror h.graph hB hb hm hr hfM]
  · simp only [Sweep.next, h.count]
  · rw [visited_next hlt, visited_next hlt', Set.mem_insert_iff, Set.mem_insert_iff, h.visited q hq,
      hβ.eq_iff hq hB]
  · rcases List.mem_append.mp hf' with hf' | hf'
    · exact mem_frames h.graph hB hb hr hfM hf'
    · exact h.frames f' ((mem_of_dropWhile hstack).2 hf')

/-- The walk that is in step comes to the other block, and finds the same wrong with it. -/
theorem Mirrors.first (h : s.Mirrors μ β M B code code' s')
    (hstack : s.stack.dropWhile s.isSeen = f :: stack) (hr : f.block = some r)
    (hb : s.graph.blocks[r]? = some b) :
    ∃ b', s'.stack.dropWhile s'.isSeen = f.rename μ β :: stack.map (Frame.rename μ β) ∧
      (f.rename μ β).block = some (β r) ∧ s'.graph.blocks[β r]? = some b' ∧
      Block.Mirrors μ β M code code' s.graph.calls s'.graph.calls r b b' ∧
      verdict code' s'.graph.calls (f.rename μ β) (β r) b' =
        (verdict code s.graph.calls f r b).map (Failure.rename μ β) := by
  obtain ⟨hfM, hfB⟩ := h.frames f (mem_of_dropWhile hstack).1
  obtain ⟨b₀, b', hb₀, hb', hm⟩ := h.graph.block r (hfB r hr)
  obtain rfl : b₀ = b := Option.some.inj (hb₀.symm.trans hb)
  exact ⟨b', by rw [h.dropWhile, hstack, List.map_cons], by rw [Frame.rename, hr, Option.map_some],
    hb', hm, verdict_mirror hm hr hfM⟩

theorem mirrors_start (h : Graph.Mirrors μ β M B code code' g g') (hentry : entry ∈ M)
    (hroot : root ∈ B) :
    (start g entry root).Mirrors μ β M B code code' (start g' (μ entry) (β root)) where
  graph := h
  reachable := rfl
  stack := rfl
  count := rfl
  visited r _ := by simp [visited_start]
  members m hm := by
    obtain rfl := List.mem_singleton.mp hm
    exact hentry
  frames f hf := by
    obtain rfl := List.mem_singleton.mp hf
    refine ⟨hentry, fun r hr => ?_⟩
    obtain rfl : root = r := Option.some.inj hr
    exact hroot

/-- Two walks in step end in the same way. -/
theorem Ends.mirror (h : Ends code s o) (hmirror : s.Mirrors μ β M B code code' s')
    (hμ : Set.InjOn μ M) (hβ : Set.InjOn β B) (hs : s.Sound code g entry)
    (hs' : s'.Sound code' g' entry') :
    (∀ t, o = .ok t → ∃ t', Ends code' s' (.ok t') ∧ t.Mirrors μ β M B code code' t') ∧
      ∀ e, o = .error e → Ends code' s' (.error (e.rename μ β)) := by
  induction h generalizing s' with
  | @done s hstack =>
    have hstack' := hmirror.dropWhile
    rw [hstack] at hstack'
    refine ⟨fun t ht => ?_, by simp⟩
    obtain rfl := Except.ok.inj ht
    exact ⟨_, .done hstack', hmirror.graph, hmirror.reachable, rfl, hmirror.count, hmirror.visited,
      hmirror.members, by simp⟩
  | @step s f stack r b o hstack hr hb hv hrest ih =>
    obtain ⟨b', hstack', hr', hb', hm, hv'⟩ := hmirror.first hstack hr hb
    rw [hv] at hv'
    have hlt := (hs.block (not_mem_visited (isSeen_of_dropWhile hstack) hr) hb).2
    have hlt' := (hs'.block (not_mem_visited (isSeen_of_dropWhile hstack') hr') hb').2
    obtain ⟨hok, herror⟩ := ih (hmirror.next hμ hβ hstack hr hb hb' hm hlt hlt')
      (hs.next hstack hr hb hv) (hs'.next hstack' hr' hb' hv')
    refine ⟨fun t ht => ?_, fun e he => .step hstack' hr' hb' hv' (herror e he)⟩
    obtain ⟨t', ht', hmirror'⟩ := hok t ht
    exact ⟨t', .step hstack' hr' hb' hv' ht', hmirror'⟩
  | @fail s f stack r b e hstack hr hb hv =>
    obtain ⟨b', hstack', hr', hb', -, hv'⟩ := hmirror.first hstack hr hb
    rw [hv] at hv'
    refine ⟨by simp, fun e' he => ?_⟩
    obtain rfl := Except.error.inj he
    exact .fail hstack' hr' hb' hv'

end Sweep

end

end Linkage
