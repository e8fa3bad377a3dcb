import Linkage.Proofs.Sweep
import Mathlib.Order.Bounds.Basic

/-!
# What a cleanup finds and leaves

The members that a successful cleanup finds are the least set that holds the entry and is closed
under what the bodies in reach refer to. The graph it leaves, whether it came to an end or not,
means what it meant before. It fails exactly if something is wrong in reach of the entry, and says
what and where.
-/

namespace Linkage

namespace Sweep

section
variable {code : Registry} {g : Graph} {entry : MemberId} {s s' : Sweep} {f : Frame}
  {stack : List Frame} {root r : BlockRef} {b : Block}

/-- The member that a report is made for: the one whose body the block was met in. Missing code is
reported of the target, and the member is named as its caller. -/
def Names (kind : DefectKind) (who : Option MemberId) (m : MemberId) : Prop :=
  match kind with
  | .missingCode caller => caller = m
  | _ => who = some m

def Blames (code : Registry) (g : Graph) (entry : MemberId) (s : Sweep) (e : Failure) : Prop :=
  ∃ m r b kind who, m ∈ s.reachable ∧ code.Meets g entry m r ∧ g.blocks[r]? = some b ∧
    b.Flaw code g.calls kind who ∧ Names kind who m ∧ e = .defect ⟨kind, who, some r⟩

theorem visited_start : (start g entry root).visited = ∅ := by
  ext r
  by_cases hr : r < g.blocks.size <;>
    simp [visited, start, Graph.unseen, Array.getD_eq_getD_getElem?, Array.getElem?_replicate, hr]

theorem sound_start (hroot : code.body? entry = some root) :
    (start g entry root).Sound code g entry where
  pruned := .refl
  seen := by simp [start, Graph.unseen]
  count := by
    rw [visited_start, Set.ncard_empty]
    rfl
  head := rfl
  nodup := List.nodup_singleton entry
  member f hf := by
    obtain rfl := List.mem_singleton.mp hf
    exact List.mem_singleton.mpr rfl
  meets f hf r hr := by
    obtain rfl := List.mem_singleton.mp hf
    obtain rfl : root = r := Option.some.inj hr
    exact .entry hroot
  nil f hf hnil := by
    obtain rfl := List.mem_singleton.mp hf
    simp at hnil
  least S hS m hm := by
    obtain rfl := List.mem_singleton.mp hm
    exact hS.entry

theorem complete_start (hroot : code.body? entry = some root) :
    (start g entry root).Complete code g entry := by
  have hnone : ∀ r, r ∉ (start g entry root).visited := by simp [visited_start]
  have hcover : ∀ root', code.body? entry = some root' → (start g entry root).Covers g root' := by
    intro root' hroot'
    obtain rfl : root = root' := by simpa [hroot] using hroot'
    exact .inr (.inl ⟨⟨some root, entry⟩, List.mem_singleton.mpr rfl, rfl⟩)
  refine ⟨hcover, fun r hr => absurd hr (hnone r), ?_, fun r hr => absurd hr (hnone r)⟩
  intro m hm root' hroot'
  obtain rfl := List.mem_singleton.mp hm
  exact .inl (hcover root' hroot')

theorem Complete.finish (h : s.Complete code g entry) (hstack : s.stack.dropWhile s.isSeen = []) :
    { s with stack := [] }.Complete code g entry := by
  have hcover : ∀ q, s.Covers g q → { s with stack := [] }.Covers g q := by
    rintro q (hq | ⟨f, hf, hq⟩ | hdead)
    · exact .inl hq
    · have hseen : s.isSeen f = true := by
        simpa using List.dropWhile_eq_nil_iff.mp hstack f hf
      exact .inl (by simpa [isSeen, hq, visited] using hseen)
    · exact .inr (.inr hdead)
  refine ⟨fun root hroot => hcover root (h.root root hroot), ?_, ?_, h.gone⟩
  · intro r hr
    obtain ⟨b, hb, hsettled⟩ := h.block r hr
    exact ⟨b, hb, hsettled.mono (List.Subset.refl _) hcover⟩
  · exact fun m hm root hroot => (h.body m hm root hroot).imp (hcover root) id

/-- A step that fails blames the block it processes, unless a call site is not there. -/
theorem Sound.blames (h : s.Sound code g entry) (hf : f ∈ s.stack)
    (hseen : s.isSeen f = false) (hr : f.block = some r) (hb : s.graph.blocks[r]? = some b)
    (hv : Sweep.visit code { s with stack } f r b = (s', some e)) :
    s'.Blames code g entry e ∨ (e = .fault .absent ∧ ¬ g.InRangeFrom code entry) := by
  obtain ⟨hb₀, -⟩ := h.block (not_mem_visited hseen hr) hb
  have hm := h.meets f hf r hr
  have hmem := h.member f hf
  rcases visit_cases hv with
    ⟨hcode, rfl, ho⟩ | ⟨hnil, rfl, ho⟩ | ⟨e', hnotes, ho, rfl⟩ | ⟨-, -, -, ho, -⟩
  · cases ho
    exact .inl ⟨f.member, r, b, _, _, hmem, hm, hb₀, .empty hcode, rfl, rfl⟩
  · cases ho
    exact .inl ⟨f.member, r, b, _, _, hmem, hm, hb₀, .nilSuccessor hnil, rfl, rfl⟩
  · cases ho
    rw [show ({ s with stack } : Sweep).graph.calls = g.calls from h.pruned.calls] at hnotes ⊢
    obtain ⟨reachable, heq, -, -, hreach⟩ := noteAll_eq (({ s with stack }.mark r).prune r b)
      (Note.ofCode code g.calls f b.code).1
    rcases Note.flaw_of_ofCode_some hnotes with ⟨rfl, site, hi, hc⟩ | ⟨kind, who, rfl, hflaw, hkind⟩
    · refine .inr ⟨rfl, fun hrange => ?_⟩
      have hlt := hrange.calls hm hb₀ hi
      exact absurd hc (by simp [Array.getElem?_eq_getElem hlt])
    · refine .inl ⟨f.member, r, b, kind, who, ?_, hm, hb₀, hflaw, ?_, by rw [hr]⟩
      · rw [heq]
        exact (hreach _).mpr (.inl hmem)
      · rcases hkind with ⟨rfl, rfl⟩ | rfl <;> rfl
  · simp at ho

theorem Sound.nil_of_stuck (h : s.Sound code g entry) (hf : f ∈ s.stack)
    (hseen : s.isSeen f = false) (hn : g.blocks.size ≤ n + s.count)
    (hstuck : n = 0 ∨ f.block.bind (s.graph.blocks[·]?) = none)
    (hrange : g.InRangeFrom code entry) : f.block = none := by
  cases hr : f.block with
  | none => rfl
  | some r =>
    have hlt := hrange.blocks (h.meets f hf r hr)
    rcases hstuck with rfl | hnone
    · -- as many blocks were processed as there are, so this one was too
      have hall : s.visited = { q | q < g.blocks.size } := by
        refine Set.eq_of_subset_of_ncard_le (h.seen ▸ s.visited_subset) ?_ (Set.finite_lt_nat _)
        rw [← h.count]
        simpa [Set.ncard_eq_toFinset_card'] using hn
      exact absurd (hall ▸ hlt) (not_mem_visited hseen hr)
    · have hlt' : r < s.graph.blocks.size := h.pruned.size ▸ hlt
      simp [hr, Array.getElem?_eq_getElem hlt'] at hnone

theorem Sound.not_stuck (h : s.Sound code g entry) (hf : f ∈ s.stack) (hseen : s.isSeen f = false)
    (hn : g.blocks.size ≤ n + s.count)
    (hstuck : n = 0 ∨ f.block.bind (s.graph.blocks[·]?) = none) :
    ¬ (g.InRangeFrom code entry ∧ code.Rooted) := by
  rintro ⟨hrange, hrooted⟩
  exact hrooted.find_ne (h.nil f hf (h.nil_of_stuck hf hseen hn hstuck hrange))

/-- What holds at the end of a run from the start. It has nowhere to go only if something in reach
is not there. -/
theorem run_from (hroot : code.body? entry = some root) :
    ((start g entry root).run code g.blocks.size).1.Sound code g entry ∧
      (((start g entry root).run code g.blocks.size).2 = none →
        ((start g entry root).run code g.blocks.size).1.Complete code g entry ∧
          ((start g entry root).run code g.blocks.size).1.stack = []) ∧
      ∀ e, ((start g entry root).run code g.blocks.size).2 = some e →
        ((start g entry root).run code g.blocks.size).1.Blames code g entry e ∨
          (e = .fault .absent ∧ ¬ (g.InRangeFrom code entry ∧ code.Rooted)) := by
  -- the steps that are left and the blocks processed make up the store, so steps cannot run out
  refine run_induction
    (P := fun n s => s.Sound code g entry ∧ s.Complete code g entry ∧ g.blocks.size ≤ n + s.count)
    (Q := fun s o => s.Sound code g entry ∧ (o = none → s.Complete code g entry ∧ s.stack = []) ∧
      ∀ e, o = some e → s.Blames code g entry e ∨
        (e = .fault .absent ∧ ¬ (g.InRangeFrom code entry ∧ code.Rooted))) ?_ ?_ ?_ ?_
    ⟨sound_start hroot, complete_start hroot, by omega⟩
  · rintro n s ⟨hs, hc, -⟩ hstack
    exact ⟨hs.pop (List.nil_subset _), fun _ => ⟨hc.finish hstack, rfl⟩, by simp⟩
  · rintro n s f stack r b s' ⟨hs, hc, hn⟩ hstack hseen hr hb hv
    refine ⟨hs.visit (mem_of_dropWhile hstack).1 (mem_of_dropWhile hstack).2 hseen hr hb hv,
      hc.visit hs hstack hseen hr hb hv, ?_⟩
    rw [visit_count hv]
    show _ ≤ n + (s.count + 1)
    omega
  · rintro n s f stack r b s' e ⟨hs, -, -⟩ hstack hseen hr hb hv
    have hvisit := hs.visit (mem_of_dropWhile hstack).1 (mem_of_dropWhile hstack).2 hseen hr hb hv
    refine ⟨hvisit.pop (List.nil_subset _), by simp, ?_⟩
    intro e' he
    cases he
    exact (hs.blames (mem_of_dropWhile hstack).1 hseen hr hb hv).imp id
      fun ⟨he, hrange⟩ => ⟨he, fun h => hrange h.1⟩
  · rintro n s f stack ⟨hs, -, hn⟩ hstack hseen hstuck
    refine ⟨hs.pop (List.nil_subset _), by simp, ?_⟩
    intro e he
    cases he
    exact .inr ⟨rfl, hs.not_stuck (mem_of_dropWhile hstack).1 hseen hn hstuck⟩

theorem run_start (hroot : code.body? entry = some root) :
    ((start g entry root).run code g.blocks.size).1.Sound code g entry ∧
      (((start g entry root).run code g.blocks.size).2 = none →
        ((start g entry root).run code g.blocks.size).1.Complete code g entry ∧
          ((start g entry root).run code g.blocks.size).1.stack = []) ∧
      ∀ e, ((start g entry root).run code g.blocks.size).2 = some e →
        ((start g entry root).run code g.blocks.size).1.Blames code g entry e ∨
          (e = .fault .absent ∧ ¬ (g.InRange code ∧ code.Rooted)) := by
  obtain ⟨hsound, hend, hfail⟩ := run_from (g := g) hroot
  refine ⟨hsound, hend, fun e he => (hfail e he).imp_right ?_⟩
  rintro ⟨hfault, hstuck⟩
  exact ⟨hfault, fun h => hstuck ⟨h.1.from, h.2⟩⟩

-- ---------------------------------------------------------------------------
-- At the end of a walk
-- ---------------------------------------------------------------------------

theorem Complete.covers_of_edge (h : s.Complete code g entry) (hstack : s.stack = [])
    (hr : s.Covers g r) (he : g.Edge r q) : s.Covers g q := by
  rcases hr with hr | ⟨f, hf, -⟩ | hdead
  · obtain ⟨b, hb, hsettled⟩ := h.block r hr
    obtain ⟨b', hb', hq⟩ := he
    obtain rfl : b = b' := by simpa [hb] using hb'
    exact hsettled.succs q hq
  · simp [hstack] at hf
  · exact absurd he hdead.no_edge

theorem Complete.covers_of_reaches (h : s.Complete code g entry) (hstack : s.stack = [])
    (hroot : s.Covers g root) (hp : g.Reaches root r) : s.Covers g r := by
  induction hp with
  | refl => exact hroot
  | tail _ he ih => exact h.covers_of_edge hstack ih he

theorem Complete.settled_or_deadLeaf (h : s.Complete code g entry) (hstack : s.stack = [])
    (hr : s.Covers g r) (hb : g.blocks[r]? = some b) : s.Settled code g b ∨ g.DeadLeaf r := by
  rcases hr with hr | ⟨f, hf, -⟩ | hdead
  · obtain ⟨b', hb', hsettled⟩ := h.block r hr
    obtain rfl : b' = b := by simpa [hb] using hb'.symm
    exact .inl hsettled
  · simp [hstack] at hf
  · exact .inr hdead

theorem Complete.covers_of_meets (h : s.Complete code g entry) (hstack : s.stack = [])
    (hm : code.Meets g entry m r) : s.Covers g r := by
  induction hm with
  | entry hroot => exact h.root _ hroot
  | succ _ he ih => exact h.covers_of_edge hstack ih he
  | call _ hb hi hc hrun hroot ih =>
    rcases h.settled_or_deadLeaf hstack ih hb with hsettled | ⟨b', hb', hcode, -⟩
    · exact hsettled.calls hi hc hrun hroot
    · rw [hb] at hb'
      cases hb'
      simp [hcode] at hi

theorem Complete.no_flaw (h : s.Complete code g entry) (hstack : s.stack = [])
    (hm : code.Meets g entry m r) (hb : g.blocks[r]? = some b) :
    ¬ b.Flaw code g.calls kind who := by
  rcases h.settled_or_deadLeaf hstack (h.covers_of_meets hstack hm) hb with hsettled | hdead
  · exact hsettled.sound kind who
  · exact hdead.no_flaw hb

theorem Complete.mem_of_covers (h : s.Complete code g entry) (hstack : s.stack = [])
    (hr : s.Covers g r) (hb : g.blocks[r]? = some b) (hi : i ∈ b.code)
    (hn : Instruction.Refers code g.calls i n) : n ∈ s.reachable := by
  -- a dead leaf may be skipped, but it refers to nothing
  rcases h.settled_or_deadLeaf hstack hr hb with hsettled | ⟨b', hb', hcode, -⟩
  · exact hsettled.refers hi hn
  · rw [hb] at hb'
    cases hb'
    obtain rfl : i = .nop := by simpa [hcode] using hi
    cases hn

theorem Complete.closed (h : s.Complete code g entry) (hs : s.Sound code g entry)
    (hstack : s.stack = []) (hfields : code.FieldFree g) :
    code.Closed g entry { m | m ∈ s.reachable } where
  entry := hs.entry_mem
  refers {m n root r b i} hm hroot hp hb hi hn := by
    have hcover : s.Covers g root := by
      rcases h.body m hm root hroot with hcover | ⟨b', hb', i', hi', hfield⟩
      · exact hcover
      · have hnone := hfields b' hb' i' hi' m hfield
        simp [Registry.body?, hnone] at hroot
    exact h.mem_of_covers hstack (h.covers_of_reaches hstack hcover hp) hb hi hn

end

end Sweep

-- ---------------------------------------------------------------------------
-- Cleanup
-- ---------------------------------------------------------------------------

namespace Program

def sweep (code : Registry) (g : Graph) (p : Program) (root : BlockRef) : Sweep × Option Failure :=
  (Sweep.start g p.entry root).run code g.blocks.size

def Visits (code : Registry) (g : Graph) (p : Program) (r : BlockRef) : Prop :=
  ∃ root, code.body? p.entry = some root ∧ r ∈ (p.sweep code g root).1.visited

section
variable {code : Registry} {g : Graph} {p : Program} {root : BlockRef}

theorem cleanup_of_none (h : code.body? p.entry = none) :
    p.cleanup code g = ⟨g, ⟨p.entry, [p.entry], 0⟩,
      some (.defect { kind := .noEntry, member := some p.entry })⟩ := by
  simp [cleanup, h]

theorem cleanup_of_some (h : code.body? p.entry = some root) :
    p.cleanup code g = ⟨(p.sweep code g root).1.graph,
      ⟨p.entry, (p.sweep code g root).1.reachable,
        if (p.sweep code g root).2 = none then (p.sweep code g root).1.count else 0⟩,
      (p.sweep code g root).2⟩ := by
  unfold cleanup sweep
  rw [h]
  cases hrun : (Sweep.start g p.entry root).run code g.blocks.size with
  | mk s o => cases o <;> simp [hrun]

theorem visits_iff (h : code.body? p.entry = some root) :
    p.Visits code g r ↔ r ∈ (p.sweep code g root).1.visited := by
  constructor
  · rintro ⟨root', hroot', hr⟩
    obtain rfl : root = root' := by simpa [h] using hroot'
    exact hr
  · exact fun hr => ⟨root, h, hr⟩

theorem cleanup_prunes (code : Registry) (g : Graph) (p : Program) :
    g.PrunedTo (p.cleanup code g).graph { r | p.Visits code g r } := by
  cases hroot : code.body? p.entry with
  | none =>
    rw [cleanup_of_none hroot]
    exact .refl
  | some root =>
    rw [cleanup_of_some hroot]
    exact (Sweep.run_start hroot).1.pruned.mono fun r hr => (visits_iff hroot).mpr hr

end

/-- The members that a cleanup without failure finds are the least set that holds the entry and,
with a member, all that the blocks of its body refer to. They are listed once each, the entry first.
Nothing that the program held before has an influence. -/
theorem reachable_cleanup_isLeast (code : Registry) (g : Graph) (p : Program)
    (hfields : code.FieldFree g) (hok : (p.cleanup code g).failure = none) :
    IsLeast { S | code.Closed g p.entry S } { m | m ∈ (p.cleanup code g).program.reachable } ∧
      (p.cleanup code g).program.reachable.Nodup ∧
      (p.cleanup code g).program.reachable.head? = some p.entry ∧
      ∀ q : Program, q.entry = p.entry → q.cleanup code g = p.cleanup code g := by
  cases hroot : code.body? p.entry with
  | none => simp [cleanup_of_none hroot] at hok
  | some root =>
    obtain ⟨hsound, hend, -⟩ := Sweep.run_start (g := g) hroot
    rw [cleanup_of_some hroot] at hok
    obtain ⟨hcomplete, hstack⟩ := hend hok
    refine ⟨⟨?_, ?_⟩, ?_, ?_, ?_⟩
    · rw [cleanup_of_some hroot]
      exact hcomplete.closed hsound hstack hfields
    · rw [cleanup_of_some hroot]
      exact fun S hS m hm => hsound.least S hS m hm
    · rw [cleanup_of_some hroot]
      exact hsound.nodup
    · rw [cleanup_of_some hroot]
      exact hsound.head
    · rintro q hq
      simp only [cleanup, hq]

/-- Two bodies that share a loop and call each other: block 1 leads back to block 0, block 2 is a
dead leaf, and block 4 becomes one. -/
def loopGraph : Graph where
  blocks := #[
    { id := 0, code := [.getField 2, .call 0]
      succs := [some 1, some 2, some 4], mergeable := true },
    { id := 1, code := [.nop], succs := [some 0], mergeable := false },
    { id := 2, code := [.nop], succs := [], mergeable := false },
    { id := 3, code := [.putField 3, .call 1], succs := [some 1], mergeable := true },
    { id := 4, code := [.nop], succs := [some 2], mergeable := true }]
  calls := #[{ callee := some 1, targets := some [some 1] },
    { callee := some 0, targets := some [] }]

def loopCode : Registry := [(0, some 0), (1, some 3)]

theorem reachable_cleanup_loop :
    loopCode.FieldFree loopGraph ∧
      (cleanup loopCode loopGraph { entry := 0 }).program.reachable = [0, 2, 1, 3] ∧
      IsLeast { S | loopCode.Closed loopGraph 0 S }
        { m | m ∈ (cleanup loopCode loopGraph { entry := 0 }).program.reachable } :=
  ⟨by decide, by decide,
    (reachable_cleanup_isLeast loopCode loopGraph { entry := 0 } (by decide) (by decide)).1⟩

/-- A cleanup leaves every block with the meaning it had, whether it fails or not. Blocks change
in their successors only and only if they were processed; what is taken from these is a dead leaf
afterwards. If nothing failed, no processed block leads to a block that was a dead leaf before. -/
theorem cleanup_preserves_effects (code : Registry) (g : Graph) (p : Program) :
    (∀ r, (p.cleanup code g).graph.effects r = g.effects r) ∧
      (p.cleanup code g).graph.calls = g.calls ∧
      (p.cleanup code g).graph.blocks.size = g.blocks.size ∧
      (∀ (r : BlockRef) (b : Block), g.blocks[r]? = some b → ∃ succs,
        (p.cleanup code g).graph.blocks[r]? = some { b with succs } ∧
        (¬ p.Visits code g r → succs = b.succs) ∧ succs.Sublist b.succs ∧
        ∀ q, succs.count q < b.succs.count q →
          ∃ t, q = some t ∧ (p.cleanup code g).graph.DeadLeaf t) ∧
      ((p.cleanup code g).failure = none → ∀ r, p.Visits code g r →
        ∀ q, g.DeadLeaf q → ¬ (p.cleanup code g).graph.Edge r q) := by
  have hprune := cleanup_prunes code g p
  refine ⟨hprune.effects_eq, hprune.calls, hprune.size, fun r b hb => hprune.block hb, ?_⟩
  intro hok r hr q hq
  obtain ⟨root, hroot, hr⟩ := hr
  obtain ⟨-, hend, -⟩ := Sweep.run_start (g := g) hroot
  rw [cleanup_of_some hroot] at hok ⊢
  exact (hend hok).1.gone r hr q hq

/-- A cleanup fails exactly if the entry has no code, or something is wrong with a block in reach.
It reports a defect: that the entry has no code, or one that the block it names really has, met in
the body of a member that was found. What was found by then is in reach, and no count is given. -/
theorem cleanup_fails_iff (code : Registry) (g : Graph) (p : Program) (hrange : g.InRange code)
    (hrooted : code.Rooted) :
    ((p.cleanup code g).failure ≠ none ↔ code.body? p.entry = none ∨
      ∃ m r b kind who, code.Meets g p.entry m r ∧ g.blocks[r]? = some b ∧
        b.Flaw code g.calls kind who) ∧
    ∀ e, (p.cleanup code g).failure = some e →
      (∃ d, e = .defect d ∧
        ((code.body? p.entry = none ∧ d = ⟨.noEntry, some p.entry, none⟩) ∨
          ∃ m root r b, m ∈ (p.cleanup code g).program.reachable ∧ code.body? m = some root ∧
            g.Reaches root r ∧ d.block = some r ∧ g.blocks[r]? = some b ∧
            b.Flaw code g.calls d.kind d.member ∧ Sweep.Names d.kind d.member m)) ∧
      p.entry ∈ (p.cleanup code g).program.reachable ∧
      (∀ S, code.Closed g p.entry S → ∀ m ∈ (p.cleanup code g).program.reachable, m ∈ S) ∧
      (p.cleanup code g).program.visited = 0 := by
  cases hroot : code.body? p.entry with
  | none =>
    rw [cleanup_of_none hroot]
    refine ⟨by simp, fun e he => ⟨⟨_, (Option.some.inj he).symm, .inl ⟨rfl, rfl⟩⟩, ?_, ?_, rfl⟩⟩
    · exact List.mem_singleton.mpr rfl
    · intro S hS m hm
      obtain rfl := List.mem_singleton.mp hm
      exact hS.entry
  | some root =>
    obtain ⟨hsound, hend, hfail⟩ := Sweep.run_start (g := g) hroot
    have hblame : ∀ e, (p.sweep code g root).2 = some e →
        (p.sweep code g root).1.Blames code g p.entry e := by
      intro e he
      exact (hfail e he).resolve_right fun h => h.2 ⟨hrange, hrooted⟩
    rw [cleanup_of_some hroot]
    refine ⟨⟨fun hne => .inr ?_, ?_⟩, fun e he => ⟨?_, ?_, hsound.least, ?_⟩⟩
    · obtain ⟨e, he⟩ := Option.ne_none_iff_exists'.mp hne
      obtain ⟨m, r, b, kind, who, -, hm, hb, hflaw, -⟩ := hblame e he
      exact ⟨m, r, b, kind, who, hm, hb, hflaw⟩
    · rintro (hnone | ⟨m, r, b, kind, who, hm, hb, hflaw⟩) hok
      · simp at hnone
      · obtain ⟨hcomplete, hstack⟩ := hend hok
        exact hcomplete.no_flaw hstack hm hb hflaw
    · obtain ⟨m, r, b, kind, who, hmem, hm, hb, hflaw, hnames, rfl⟩ := hblame e he
      obtain ⟨root', hroot', hp⟩ := hm.body
      exact ⟨_, rfl, .inr ⟨m, root', r, b, hmem, hroot', hp, rfl, hb, hflaw, hnames⟩⟩
    · exact hsound.entry_mem
    · have hsome : (p.sweep code g root).2 = some e := he
      simp [hsome]

theorem cleanup_fails_without_callee :
    loopGraph.InRange [(0, some 0)] ∧ Registry.Rooted [(0, some 0)] ∧
      ∃ m r b kind who, Registry.Meets [(0, some 0)] loopGraph 0 m r ∧
        loopGraph.blocks[r]? = some b ∧ b.Flaw [(0, some 0)] loopGraph.calls kind who :=
  ⟨by decide, by decide,
    ((cleanup_fails_iff [(0, some 0)] loopGraph { entry := 0 } (by decide) (by decide)).1.mp
      (by decide)).resolve_left (by decide)⟩

end Program

end Linkage
