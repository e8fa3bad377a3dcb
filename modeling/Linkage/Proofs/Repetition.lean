import Linkage.Proofs.Runs
import Mathlib.Logic.Function.Iterate

/-!
# Cleaning up again

A cleanup may leave blocks that are dead leaves only since it pruned their own successors, and a
second one takes these away, and so on. The walk of the second cleanup follows the walk of the
first: both process the same blocks in the same order, apart from blocks that are dead leaves by
the end of the first one, where nothing is found. So the members in reach stay, in their order, and
since successors only become fewer, repeated cleanups come to a graph that they leave alone.
-/

namespace Linkage

theorem Graph.setBlock_self {g : Graph} {r : BlockRef} {b : Block} (hb : g.blocks[r]? = some b) :
    g.setBlock r b = g := by
  obtain ⟨hlt, rfl⟩ := Array.getElem?_eq_some_iff.mp hb
  simp [setBlock, Array.setIfInBounds]

namespace Sweep

/-- The frames that a walk has still to come to, without the dead leaves of a graph. -/
def pending (k : Graph) (s : Sweep) : List Frame :=
  s.stack.filter fun f => !s.isSeen f && k.isLive f.block

def met (s : Sweep) : Set BlockRef := { r | r ∈ s.visited ∨ ∃ f ∈ s.stack, f.block = some r }

/-- The second walk found what the first one found and has the same ahead of it, apart from the dead
leaves of a graph. It meets no block that the first one does not. -/
structure Follows (k : Graph) (s t : Sweep) : Prop where
  reachable : t.reachable = s.reachable
  pending : t.pending k = s.pending k
  visited : ∀ r, ¬ k.DeadLeaf r → (r ∈ t.visited ↔ r ∈ s.visited)
  met : t.met ⊆ s.met

section
variable {code : Registry} {g k : Graph} {entry : MemberId} {s s' t t' u : Sweep} {f f' : Frame}
  {stack stack' : List Frame} {r q : BlockRef} {b b' : Block}

theorem Follows.trans (h : s.Follows k t) (h' : t.Follows k u) : s.Follows k u where
  reachable := h'.reachable.trans h.reachable
  pending := h'.pending.trans h.pending
  visited r hr := (h'.visited r hr).trans (h.visited r hr)
  met := h'.met.trans h.met

theorem isSeen_next (hr : r < s.seen.size) :
    (s.next code f stack r b).isSeen f' = (s.isSeen f' || f'.block == some r) := by
  cases hf : f'.block with
  | none => simp [isSeen, hf]
  | some q =>
    rw [Bool.eq_iff_iff, isSeen_iff hf, visited_next hr, Bool.or_eq_true, isSeen_iff hf]
    simp [or_comm]

theorem pending_of_dropWhile (hstack : s.stack.dropWhile s.isSeen = rest) :
    s.pending k = rest.filter fun f => !s.isSeen f && k.isLive f.block := by
  have hseen : (s.stack.takeWhile s.isSeen).filter (fun f => !s.isSeen f && k.isLive f.block) =
      [] := by
    refine List.filter_eq_nil_iff.mpr fun f hf => ?_
    simp [List.mem_takeWhile_imp hf]
  rw [pending, ← List.takeWhile_append_dropWhile (p := s.isSeen) (l := s.stack), hstack,
    List.filter_append, hseen, List.nil_append]

theorem pending_cons (hstack : s.stack.dropWhile s.isSeen = f :: stack)
    (hlive : k.isLive f.block = true) :
    s.pending k = f :: stack.filter fun f' => !s.isSeen f' && k.isLive f'.block := by
  rw [pending_of_dropWhile hstack,
    List.filter_cons_of_pos (by simp [isSeen_of_dropWhile hstack, hlive])]

theorem pending_next (hlt : r < s.seen.size) :
    (s.next code f stack r b).pending k =
      ((frames code s.graph f b ++ stack).filter fun f' => !s.isSeen f' && k.isLive f'.block).filter
        fun f' => f'.block != some r := by
  rw [List.filter_filter, pending]
  refine List.filter_congr fun f' _ => ?_
  rw [isSeen_next hlt]
  cases s.isSeen f' <;> cases k.isLive f'.block <;> simp [bne]

theorem met_eq_visited (hstack : s.stack.dropWhile s.isSeen = []) : s.met = s.visited := by
  ext q
  refine ⟨?_, .inl⟩
  rintro (hq | ⟨f, hf, hq⟩)
  · exact hq
  · exact (isSeen_iff hq).mp (by simpa using List.dropWhile_eq_nil_iff.mp hstack f hf)

theorem met_next (hstack : s.stack.dropWhile s.isSeen = f :: stack) (hr : f.block = some r)
    (hlt : r < s.seen.size) :
    (s.next code f stack r b).met =
      s.met ∪ { q | ∃ f' ∈ frames code s.graph f b, f'.block = some q } := by
  ext q
  simp only [met, visited_next hlt, Set.mem_union, Set.mem_ofPred_eq, Set.mem_insert_iff]
  constructor
  · rintro ((rfl | hq) | ⟨f', hf', hq⟩)
    · exact .inl (.inr ⟨f, (mem_of_dropWhile hstack).1, hr⟩)
    · exact .inl (.inl hq)
    · rcases List.mem_append.mp hf' with hf' | hf'
      · exact .inr ⟨f', hf', hq⟩
      · exact .inl (.inr ⟨f', (mem_of_dropWhile hstack).2 hf', hq⟩)
  · rintro ((hq | ⟨f', hf', hq⟩) | ⟨f', hf', hq⟩)
    · exact .inl (.inr hq)
    · rcases mem_stack hstack hf' with hseen | rfl | hf'
      · exact .inl (.inr ((isSeen_iff hq).mp hseen))
      · exact .inl (.inl (Option.some.inj (hq.symm.trans hr)))
      · exact .inr ⟨f', List.mem_append_right _ hf', hq⟩
    · exact .inr ⟨f', List.mem_append_left _ hf', hq⟩

theorem frames_idle (code : Registry) (f : Frame) (hcode : b.code = [.nop])
    (hsuccs : b.succs.filter g.isLive = []) : frames code g f b = [] := by
  simp [frames, hsuccs, hcode, Note.ofCode, Note.ofInstruction]

/-- At a dead leaf nothing is found, and no other block comes into sight. -/
theorem follows_idle (code : Registry) (hstack : s.stack.dropWhile s.isSeen = f :: stack)
    (hr : f.block = some r) (hlt : r < s.seen.size) (hdead : k.DeadLeaf r) (hcode : b.code = [.nop])
    (hsuccs : b.succs.filter s.graph.isLive = []) :
    s.Follows k (s.next code f stack r b) ∧ (s.next code f stack r b).Follows k s := by
  have hframes := frames_idle code f hcode hsuccs
  have hreachable : (s.next code f stack r b).reachable = s.reachable := by
    simp [next, noted, hcode, Note.ofCode, Note.ofInstruction]
  have hpending : (s.next code f stack r b).pending k = s.pending k := by
    have hlive : k.isLive f.block = false := by rw [hr]; exact Graph.isLive_some.mpr hdead
    rw [pending_next hlt, pending_of_dropWhile hstack, hframes, List.nil_append,
      List.filter_cons_of_neg (by simp [hlive]), List.filter_eq_self]
    intro f' hf'
    have hlive' := (Bool.and_eq_true _ _ ▸ (List.mem_filter.mp hf').2).2
    refine bne_iff_ne.mpr fun heq => ?_
    rw [heq, Graph.isLive_some.mpr hdead] at hlive'
    exact Bool.false_ne_true hlive'
  have hvisited : ∀ q, ¬ k.DeadLeaf q →
      (q ∈ (s.next code f stack r b).visited ↔ q ∈ s.visited) := by
    intro q hq
    have hne : q ≠ r := by
      rintro rfl
      exact hq hdead
    simp [visited_next hlt, hne]
  have hmet : (s.next code f stack r b).met = s.met := by
    rw [met_next hstack hr hlt, hframes]
    simp
  exact ⟨⟨hreachable, hpending, hvisited, hmet.subset⟩,
    ⟨hreachable.symm, hpending.symm, fun q hq => (hvisited q hq).symm, hmet.superset⟩⟩

/-- The second walk goes on until it is at a block that is no dead leaf, or at its end. -/
theorem Follows.skip (ht : t.Sound code k entry) (h : s.Follows k t) :
    ∃ t', t'.Sound code k entry ∧ s.Follows k t' ∧ (∀ o, Ends code t' o → Ends code t o) ∧
      (t'.stack.dropWhile t'.isSeen = [] ∨
        ∃ f stack, t'.stack.dropWhile t'.isSeen = f :: stack ∧ k.isLive f.block = true) := by
  induction hn : t.stack.length using Nat.strong_induction_on generalizing t with
  | _ n ih =>
    subst hn
    cases hstack : t.stack.dropWhile t.isSeen with
    | nil => exact ⟨t, ht, h, fun _ ho => ho, .inl hstack⟩
    | cons f stack =>
      cases hlive : k.isLive f.block with
      | true => exact ⟨t, ht, h, fun _ ho => ho, .inr ⟨f, stack, hstack, hlive⟩⟩
      | false =>
        -- the block was not processed by this walk, so it still is the dead leaf of the graph
        obtain ⟨r, hr, hdead⟩ := Graph.deadLeaf_of_not_isLive hlive
        obtain ⟨b, hb, hcode, hsuccs⟩ := ht.pruned.deadLeaf hdead
        have hlt := (ht.block (not_mem_visited (isSeen_of_dropWhile hstack) hr) hb).2
        have hv : verdict code t.graph.calls f r b = none := by
          simp [verdict, hcode, hsuccs, Note.ofCode, Note.ofInstruction]
        have hkept : b.succs.filter t.graph.isLive = [] := by simp [hsuccs]
        have hidle := (follows_idle code hstack hr hlt hdead hcode hkept).1
        have hlen : (t.next code f stack r b).stack.length < t.stack.length := by
          have hsuffix := (List.dropWhile_suffix (l := t.stack) t.isSeen).length_le
          rw [hstack] at hsuffix
          simpa [next, frames_idle code f hcode hkept] using hsuffix
        obtain ⟨t', ht', h', hrest, hend⟩ :=
          ih _ hlen (ht.next hstack hr hb hv) (h.trans hidle) rfl
        exact ⟨t', ht', h', fun o ho => .step hstack hr hb hv (hrest o ho), hend⟩

theorem Follows.isSeen (h : s.Follows k t) (f : Frame) :
    (!t.isSeen f && k.isLive f.block) = (!s.isSeen f && k.isLive f.block) := by
  cases hr : f.block with
  | none => simp [Sweep.isSeen, hr]
  | some q =>
    by_cases hdead : k.DeadLeaf q
    · simp [Graph.isLive_some.mpr hdead]
    · have hseen : t.isSeen f = s.isSeen f := by
        rw [Bool.eq_iff_iff, isSeen_iff hr, isSeen_iff hr, h.visited q hdead]
      rw [hseen]

theorem filter_map_filter {p : β → Bool} {keep : α → Bool} {φ : α → β} {xs : List α}
    (h : ∀ x, keep x = false → p (φ x) = false) :
    ((xs.filter keep).map φ).filter p = (xs.map φ).filter p := by
  rw [List.filter_map, List.filter_map, List.filter_filter]
  refine congrArg (List.map φ) (List.filter_congr fun x _ => ?_)
  cases hx : keep x with
  | true => simp
  | false => simp [h x hx]

/-- Both walks process the same block, of which the second one finds what the first one left. -/
theorem Follows.next (h : s.Follows k t) (hcalls : t.graph.calls = s.graph.calls)
    (hstack : s.stack.dropWhile s.isSeen = f :: stack)
    (hstack' : t.stack.dropWhile t.isSeen = f :: stack') (hr : f.block = some r)
    (hlt : r < s.seen.size) (hlt' : r < t.seen.size) (hcode : b'.code = b.code)
    (hsuccs : b'.succs = b.succs.filter s.graph.isLive)
    (hdead : ∀ q, t.graph.DeadLeaf q → q ∈ t.visited ∨ k.DeadLeaf q) :
    (s.next code f stack r b).Follows k (t.next code f stack' r b') := by
  have hrest : stack'.filter (fun f' => !s.isSeen f' && k.isLive f'.block) =
      stack.filter fun f' => !s.isSeen f' && k.isLive f'.block := by
    have hpending := h.pending
    rw [pending_of_dropWhile hstack, pending_of_dropWhile hstack', funext h.isSeen] at hpending
    cases hf : !s.isSeen f && k.isLive f.block <;> simpa [hf] using hpending
  -- a successor that the second walk drops was processed by it, or is not counted
  have hdrop : ∀ q, t.graph.isLive q = false →
      (!s.isSeen ⟨q, f.member⟩ && k.isLive q) = false := by
    intro q hq
    obtain ⟨q, rfl, hleaf⟩ := Graph.deadLeaf_of_not_isLive hq
    rw [← h.isSeen ⟨some q, f.member⟩]
    rcases hdead q hleaf with hseen | hq
    · simp [(isSeen_iff (f := ⟨some q, f.member⟩) rfl).mpr hseen]
    · simp [Graph.isLive_some.mpr hq]
  refine ⟨?_, ?_, fun q hq => ?_, ?_⟩
  · simp [Sweep.next, h.reachable, hcalls, hcode]
  · rw [pending_next hlt, pending_next hlt', funext h.isSeen]
    congr 1
    rw [List.filter_append, List.filter_append, hrest, frames, frames, List.filter_append,
      filter_map_filter hdrop, List.filter_append, hsuccs, hcalls, hcode]
  · rw [visited_next hlt, visited_next hlt', Set.mem_insert_iff, Set.mem_insert_iff, h.visited q hq]
  · rw [met_next hstack hr hlt, met_next hstack' hr hlt']
    refine Set.union_subset_union h.met ?_
    rintro q ⟨f', hf', hq⟩
    refine ⟨f', ?_, hq⟩
    rcases List.mem_append.mp hf' with hf' | hf'
    · refine List.mem_append_left _ ?_
      rw [← hsuccs]
      exact List.map_subset _ List.filter_sublist.subset hf'
    · refine List.mem_append_right _ ?_
      rwa [hcalls, hcode] at hf'

theorem Follows.step (h : s.Follows k t) (ht : t.Sound code k entry)
    (hcalls : k.calls = s.graph.calls) (hstack : s.stack.dropWhile s.isSeen = f :: stack)
    (hstack' : t.stack.dropWhile t.isSeen = f :: stack') (hr : f.block = some r)
    (hlt : r < s.seen.size)
    (hb : k.blocks[r]? = some { b with succs := b.succs.filter s.graph.isLive })
    (hv : verdict code s.graph.calls f r b = none) :
    ∃ b', t.graph.blocks[r]? = some b' ∧ verdict code t.graph.calls f r b' = none ∧
      (s.next code f stack r b).Follows k (t.next code f stack' r b') := by
  have hnew := not_mem_visited (isSeen_of_dropWhile hstack') hr
  have hb' := ht.untouched hb hnew
  have hcalls' : t.graph.calls = s.graph.calls := ht.pruned.calls.trans hcalls
  refine ⟨_, hb', ?_, h.next hcalls' hstack hstack' hr hlt (ht.block hnew hb').2 rfl rfl ?_⟩
  · obtain ⟨hcode, hnil, hnotes⟩ := verdict_eq_none.mp hv
    refine verdict_eq_none.mpr ⟨hcode, fun hmem => hnil (List.mem_of_mem_filter hmem), ?_⟩
    rw [hcalls']
    exact hnotes
  · intro q hq
    by_cases hqv : q ∈ t.visited
    · exact .inl hqv
    · exact .inr (ht.pruned.deadLeaf_of_untouched hq hqv)

/-- If a walk comes to an end without failure, a walk of the graph it leaves does so too, and finds
the same. -/
theorem Ends.follow (h : Ends code s (.ok u)) (hs : s.Sound code g entry)
    (ht : t.Sound code u.graph entry) (hf : s.Follows u.graph t) :
    ∃ v, Ends code t (.ok v) ∧ u.Follows u.graph v := by
  generalize ho : Except.ok (ε := Failure) u = o at h
  induction h generalizing t with
  | @done s hstack =>
    cases ho
    obtain ⟨t', -, hf', hrest, hend⟩ := hf.skip ht
    rcases hend with hstack' | ⟨f, stack, hstack', hlive⟩
    · refine ⟨_, hrest _ (.done hstack'), hf'.reachable, rfl, hf'.visited, ?_⟩
      rw [met_eq_visited rfl, met_eq_visited rfl]
      exact met_eq_visited hstack ▸ met_eq_visited hstack' ▸ hf'.met
    · have hpending := hf'.pending
      rw [pending_of_dropWhile hstack, pending_cons hstack' hlive] at hpending
      cases hpending
  | @step s f stack r b o hstack hr hb hv hrest ih =>
    subst ho
    have hnew := not_mem_visited (isSeen_of_dropWhile hstack) hr
    have hlt := (hs.block hnew hb).2
    have hnext := hs.next hstack hr hb hv
    -- no later step changes the block
    have hfinal : u.graph.blocks[r]? = some { b with succs := b.succs.filter s.graph.isLive } := by
      rw [(hrest.block hnext (visited_next hlt ▸ Set.mem_insert r _)).2, next_block hb]
    cases hlive : u.graph.isLive f.block with
    | false =>
      -- only the first walk has a block to process here
      have hdead : u.graph.DeadLeaf r := Graph.isLive_some.mp (hr ▸ hlive)
      obtain ⟨b', hb', hcode, hsuccs⟩ := id hdead
      obtain rfl := Option.some.inj (hfinal.symm.trans hb')
      have hidle := follows_idle code (b := b) hstack hr hlt hdead hcode hsuccs
      exact ih hnext ht (hidle.2.trans hf) rfl
    | true =>
      obtain ⟨t', ht', hf', hskip, hend⟩ := hf.skip ht
      have hpending := hf'.pending
      rw [pending_cons hstack hlive] at hpending
      rcases hend with hstack' | ⟨f', stack', hstack', hlive'⟩
      · rw [pending_of_dropWhile hstack'] at hpending
        cases hpending
      · rw [pending_cons hstack' hlive'] at hpending
        obtain rfl := (List.cons.inj hpending).1
        obtain ⟨b', hb', hv', hstep⟩ :=
          hf'.step ht' hrest.calls hstack hstack' hr hlt hfinal hv
        obtain ⟨v, hends, hfollow⟩ := ih hnext (ht'.next hstack' hr hb' hv') hstep rfl
        exact ⟨v, hskip _ (.step hstack' hr hb' hv' hends), hfollow⟩
  | fail => cases ho

theorem follows_start (g k : Graph) (entry : MemberId) (root : BlockRef) :
    (start g entry root).Follows k (start k entry root) := by
  have hvisited : ∀ (g : Graph) r, r ∉ (start g entry root).visited := by simp [visited_start]
  have hseen : ∀ (g : Graph) f, (start g entry root).isSeen f = false := by
    intro g f
    cases hr : f.block with
    | none => simp [isSeen, hr]
    | some r => simpa [← isSeen_iff hr] using hvisited g r
  refine ⟨rfl, ?_, fun r _ => iff_of_false (hvisited k r) (hvisited g r), ?_⟩
  · simp only [pending, hseen]
    rfl
  · rintro r (hr | hr)
    · exact absurd hr (hvisited k r)
    · exact .inr hr

/-- A walk that processes no block with a dead leaf among its successors changes nothing. -/
theorem Ends.graph_eq (h : Ends code s (.ok t)) (hs : s.Sound code g entry) (hg : s.graph = g)
    (hlive : ∀ r ∈ t.visited, ∀ q, g.Edge r q → ¬ g.DeadLeaf q) : t.graph = g := by
  generalize ho : Except.ok (ε := Failure) t = o at h
  induction h with
  | done =>
    cases ho
    exact hg
  | @step s f stack r b o hstack hr hb hv hrest ih =>
    subst ho
    refine ih (hs.next hstack hr hb hv) ?_ rfl
    have hnew := not_mem_visited (isSeen_of_dropWhile hstack) hr
    have hmem : r ∈ t.visited := (hrest.block (hs.next hstack hr hb hv)
      (visited_next (hs.block hnew hb).2 ▸ Set.mem_insert r _)).1
    have hall : b.succs.filter s.graph.isLive = b.succs := by
      refine List.filter_eq_self.mpr fun q hq => ?_
      by_contra hdead
      obtain ⟨q, rfl, hleaf⟩ := Graph.deadLeaf_of_not_isLive (by simpa using hdead)
      rw [hg] at hb hleaf
      exact hlive r hmem q ⟨b, hb, hq⟩ hleaf
    show s.graph.setBlock r { b with succs := b.succs.filter s.graph.isLive } = g
    rw [hall, ← hg]
    exact Graph.setBlock_self hb
  | fail => cases ho

end

end Sweep

def Graph.edges (g : Graph) : Nat := (g.blocks.toList.map (·.succs.length)).sum

theorem sum_succs_le {xs ys : List Block}
    (h : List.Forall₂ (fun b b' => b' = { b with succs := b'.succs } ∧ b'.succs.Sublist b.succs)
      xs ys) :
    (ys.map (·.succs.length)).sum ≤ (xs.map (·.succs.length)).sum ∧
      ((ys.map (·.succs.length)).sum = (xs.map (·.succs.length)).sum → ys = xs) := by
  induction h with
  | nil => simp
  | @cons b b' xs ys hb _ ih =>
    have hlen := hb.2.length_le
    simp only [List.map_cons, List.sum_cons]
    refine ⟨by omega, fun heq => ?_⟩
    rw [ih.2 (by omega), hb.1, hb.2.eq_of_length (by omega)]

theorem Graph.PrunedTo.edges_lt {g g' : Graph} {V : Set BlockRef} (h : g.PrunedTo g' V)
    (hne : g' ≠ g) : g'.edges < g.edges := by
  have hblocks : List.Forall₂
      (fun b b' => b' = { b with succs := b'.succs } ∧ b'.succs.Sublist b.succs)
      g.blocks.toList g'.blocks.toList := by
    refine List.forall₂_iff_get.mpr ⟨h.size.symm, fun i hi hi' => ?_⟩
    obtain ⟨succs, hb, -, hsub, -⟩ := h.block (Array.getElem?_eq_getElem (by simpa using hi))
    obtain ⟨_, hb⟩ := Array.getElem?_eq_some_iff.mp hb
    simpa [hb] using hsub
  refine lt_of_le_of_ne (sum_succs_le hblocks).1 fun heq => hne ?_
  have hsame : g'.blocks = g.blocks := Array.toList_inj.mp ((sum_succs_le hblocks).2 heq)
  have hcalls := h.calls
  have hissued := h.issued
  cases g
  cases g'
  simp_all

def Cleaned.again (code : Registry) (c : Cleaned) : Cleaned := c.program.cleanup code c.graph

namespace Program

section
variable {code : Registry} {g : Graph} {p : Program}

theorem entry_cleanup (code : Registry) (g : Graph) (p : Program) :
    (p.cleanup code g).program.entry = p.entry := by
  cases hroot : code.body? p.entry with
  | none => rw [cleanup_of_none hroot]
  | some root => rw [cleanup_of_some hroot]

theorem cleanup_congr {q : Program} (h : q.entry = p.entry) :
    q.cleanup code g = p.cleanup code g := by
  simp only [cleanup, h]

theorem visits_congr {q : Program} (h : q.entry = p.entry) :
    q.Visits code g r ↔ p.Visits code g r := by
  simp only [Visits, sweep, h]

/-- After a cleanup without failure the next one has none either. It finds the same members, and
processes the same blocks except for some dead leaves. -/
theorem again_of_cleanup (hok : (p.cleanup code g).failure = none) :
    ((p.cleanup code g).again code).failure = none ∧
      ((p.cleanup code g).again code).program.reachable = (p.cleanup code g).program.reachable ∧
      ((p.cleanup code g).again code).program.visited ≤ (p.cleanup code g).program.visited ∧
      (∀ r, (p.cleanup code g).program.Visits code (p.cleanup code g).graph r → p.Visits code g r) ∧
      ∀ r, ¬ (p.cleanup code g).graph.DeadLeaf r → p.Visits code g r →
        (p.cleanup code g).program.Visits code (p.cleanup code g).graph r := by
  obtain ⟨root, u, hroot, hends⟩ := ends_of_cleanup hok
  obtain ⟨hsound, -, hstack⟩ := hends.complete hroot
  obtain ⟨v, hends', hfollow⟩ := hends.follow (Sweep.sound_start hroot) (Sweep.sound_start hroot)
    (Sweep.follows_start g u.graph p.entry root)
  obtain ⟨hsound', -, hstack'⟩ := hends'.complete hroot
  obtain ⟨hclean, hvisits⟩ := cleanup_of_ends hroot hends
  rw [hclean]
  obtain ⟨hagain, hvisits'⟩ := cleanup_of_ends (p := ⟨p.entry, u.reachable, u.count⟩) hroot hends'
  have hsub : v.visited ⊆ u.visited := by
    have hmet := hfollow.met
    rwa [Sweep.met_eq_visited (by simp [hstack']), Sweep.met_eq_visited (by simp [hstack])] at hmet
  rw [Cleaned.again, hagain]
  refine ⟨rfl, hfollow.reachable, ?_, fun r hr => ?_, fun r hr hr' => ?_⟩
  · show v.count ≤ u.count
    rw [hsound.count, hsound'.count]
    exact Set.ncard_le_ncard hsub u.visited_finite
  · exact (hvisits r).mpr (hsub ((hvisits' r).mp hr))
  · exact (hvisits' r).mpr ((hfollow.visited r hr).mpr ((hvisits r).mp hr'))

theorem graph_cleanup_eq (hok : (p.cleanup code g).failure = none)
    (hlive : ∀ r, p.Visits code g r → ∀ q, g.Edge r q → ¬ g.DeadLeaf q) :
    (p.cleanup code g).graph = g := by
  obtain ⟨root, u, hroot, hends⟩ := ends_of_cleanup hok
  obtain ⟨hclean, hvisits⟩ := cleanup_of_ends hroot hends
  rw [hclean]
  exact hends.graph_eq (Sweep.sound_start hroot) rfl fun r hr => hlive r ((hvisits r).mpr hr)

theorem not_edge_cleanup (hok : (p.cleanup code g).failure = none) (hr : p.Visits code g r)
    (hq : g.DeadLeaf q) : ¬ (p.cleanup code g).graph.Edge r q := by
  obtain ⟨root, u, hroot, hends⟩ := ends_of_cleanup hok
  obtain ⟨hclean, hvisits⟩ := cleanup_of_ends hroot hends
  rw [hclean]
  exact (hends.complete hroot).2.1.gone r ((hvisits r).mp hr) q hq

theorem exists_steady (hok : (p.cleanup code g).failure = none) :
    ∃ n, ∃ c, (Cleaned.again code)^[n] (p.cleanup code g) = c ∧ c.again code = c ∧
      c.failure = none ∧ c.program.reachable = (p.cleanup code g).program.reachable ∧
      ∀ r, c.program.Visits code c.graph r → ∀ q, c.graph.Edge r q → ¬ c.graph.DeadLeaf q := by
  induction hn : (p.cleanup code g).graph.edges using Nat.strong_induction_on
    generalizing p g with
  | _ n ih =>
    subst hn
    obtain ⟨hok', hreach, -, -, -⟩ := again_of_cleanup hok
    by_cases hsame : ((p.cleanup code g).again code).graph = (p.cleanup code g).graph
    · have hentry : ((p.cleanup code g).again code).program.entry =
          (p.cleanup code g).program.entry := entry_cleanup _ _ _
      refine ⟨1, (p.cleanup code g).again code, rfl, ?_, hok', hreach, ?_⟩
      · show Program.cleanup code _ _ = _
        rw [hsame, cleanup_congr hentry]
        rfl
      · intro r hr q hq hdead
        rw [hsame, visits_congr hentry] at hr
        rw [hsame] at hdead
        exact not_edge_cleanup hok' hr hdead hq
    · have hlt := (cleanup_prunes code _ (p.cleanup code g).program).edges_lt hsame
      obtain ⟨n, c, hn, hfix, hfail, hreach', hlive⟩ := ih _ hlt hok' rfl
      exact ⟨n + 1, c, hn, hfix, hfail, hreach'.trans hreach, hlive⟩

end

/-- A cleanup that follows one without failure finds the same members in the same order and
processes no more blocks. It changes successors exactly if a block that was processed still has a
dead leaf among them. Repeated often enough, cleanups change nothing any more, and no block that
they process has a dead leaf among its successors. -/
theorem cleanup_again (code : Registry) (g : Graph) (p : Program) (c : Cleaned)
    (hc : p.cleanup code g = c) (hok : c.failure = none) :
    ((c.again code).failure = none ∧
        (c.again code).program.reachable = c.program.reachable ∧
        (c.again code).program.visited ≤ c.program.visited) ∧
      ((∃ r : BlockRef, ((c.again code).graph.blocks[r]?).map (·.succs) ≠
          (c.graph.blocks[r]?).map (·.succs)) ↔
        ∃ r q, p.Visits code g r ∧ c.graph.Edge r q ∧ c.graph.DeadLeaf q) ∧
      ∃ n c', (Cleaned.again code)^[n] c = c' ∧ c'.again code = c' ∧ c'.failure = none ∧
        c'.program.reachable = c.program.reachable ∧
        ∀ r, c'.program.Visits code c'.graph r →
          ∀ q, c'.graph.Edge r q → ¬ c'.graph.DeadLeaf q := by
  subst hc
  obtain ⟨hok', hreach, hcount, hsub, hsup⟩ := again_of_cleanup hok
  refine ⟨⟨hok', hreach, hcount⟩, ⟨?_, ?_⟩, exists_steady hok⟩
  · rintro ⟨r, hne⟩
    by_contra hnone
    refine hne ?_
    have hsame : ((p.cleanup code g).again code).graph = (p.cleanup code g).graph :=
      graph_cleanup_eq hok' fun r hr q hq hdead => hnone ⟨r, q, hsub r hr, hq, hdead⟩
    rw [hsame]
  · rintro ⟨r, q, hr, hedge, hdead⟩
    -- a block with a successor is no dead leaf, so the second cleanup comes to it
    have hr' := hsup r (fun hleaf => hleaf.no_edge hedge) hr
    refine ⟨r, fun heq => not_edge_cleanup hok' hr' hdead ?_⟩
    obtain ⟨b, hb, hq⟩ := hedge
    rw [hb, Option.map_some] at heq
    obtain ⟨b', hb', hsuccs⟩ := Option.map_eq_some_iff.mp heq
    exact ⟨b', hb', hsuccs ▸ hq⟩

theorem cleanup_again_loop :
    (cleanup loopCode loopGraph { entry := 0 }).failure = none ∧
      ∃ r q, Visits loopCode loopGraph { entry := 0 } r ∧
        (cleanup loopCode loopGraph { entry := 0 }).graph.Edge r q ∧
        (cleanup loopCode loopGraph { entry := 0 }).graph.DeadLeaf q :=
  ⟨by decide, (cleanup_again loopCode loopGraph { entry := 0 } _ rfl (by decide)).2.1.mp
    ⟨0, by decide⟩⟩

end Program

end Linkage
