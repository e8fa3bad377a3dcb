import Linkage.Proofs.Cleanup

/-!
# Runs to their end

A run counts its steps down, but how many it may take has no influence once they are enough. Here
a run is a relation without a count, `Sweep.Ends`, in which each step says in full what processing
a block makes of the walk. Runs of different graphs are compared in this form.
-/

namespace Linkage.Sweep

def noted (reachable : List MemberId) (notes : List Note) : List MemberId :=
  notes.foldl (fun ms n => if n.member ∈ ms then ms else ms ++ [n.member]) reachable

def verdict (code : Registry) (calls : Array Call) (f : Frame) (r : BlockRef) (b : Block) :
    Option Failure :=
  if b.code = [] then some (.defect ⟨.emptyBlock, some f.member, some r⟩)
  else if b.succs.contains none then some (.defect ⟨.nilSuccessor, some f.member, some r⟩)
  else (Note.ofCode code calls f b.code).2

/-- The frames that a block adds to the stack: its successors, unless they are dead leaves, and
under them the bodies of its callees. -/
def frames (code : Registry) (g : Graph) (f : Frame) (b : Block) : List Frame :=
  (b.succs.filter g.isLive).map (⟨·, f.member⟩) ++
    ((Note.ofCode code g.calls f b.code).1.filterMap Note.frame?).reverse

def next (code : Registry) (s : Sweep) (f : Frame) (stack : List Frame) (r : BlockRef)
    (b : Block) : Sweep where
  graph := (s.prune r b).graph
  reachable := noted s.reachable (Note.ofCode code s.graph.calls f b.code).1
  seen := s.seen.setIfInBounds r true
  count := s.count + 1
  stack := frames code s.graph f b ++ stack

/-- The walk comes to an end: it uses up its stack, or fails at a block. -/
inductive Ends (code : Registry) : Sweep → Except Failure Sweep → Prop
  | done {s} : s.stack.dropWhile s.isSeen = [] → Ends code s (.ok { s with stack := [] })
  | step {s f stack r b o} : s.stack.dropWhile s.isSeen = f :: stack → f.block = some r →
      s.graph.blocks[r]? = some b → verdict code s.graph.calls f r b = none →
      Ends code (s.next code f stack r b) o → Ends code s o
  | fail {s f stack r b e} : s.stack.dropWhile s.isSeen = f :: stack → f.block = some r →
      s.graph.blocks[r]? = some b → verdict code s.graph.calls f r b = some e →
      Ends code s (.error e)

def outcome : Sweep × Option Failure → Except Failure Sweep
  | (s, none) => .ok s
  | (_, some e) => .error e

section
variable {code : Registry} {g : Graph} {entry : MemberId} {s t : Sweep} {f : Frame}
  {stack : List Frame} {root r : BlockRef} {b : Block}

theorem outcome_ok {x : Sweep × Option Failure} : outcome x = .ok t ↔ x = (t, none) := by
  obtain ⟨s, o⟩ := x
  cases o <;> simp [outcome]

theorem outcome_error {x : Sweep × Option Failure} : outcome x = .error e ↔ x.2 = some e := by
  obtain ⟨s, o⟩ := x
  cases o <;> simp [outcome]

theorem noteAll_noted (s : Sweep) (notes : List Note) :
    s.noteAll notes = { s with
      reachable := noted s.reachable notes
      stack := (notes.filterMap Note.frame?).reverse ++ s.stack } := by
  induction notes generalizing s with
  | nil => rfl
  | cons n rest ih =>
    have hnote : s.note n = { s with
        reachable := noted s.reachable [n], stack := n.frame?.toList ++ s.stack } := by
      rw [note_eq]
      by_cases hn : n.member ∈ s.reachable
      · simp [reach, noted, hn]
      · simp [reach, noted, hn]
    show (s.note n).noteAll rest = _
    rw [ih, hnote]
    cases hf : n.frame? <;> simp [hf, noted]

theorem visit_snd (code : Registry) (s : Sweep) (f : Frame) (r : BlockRef) (b : Block) :
    (visit code s f r b).2 = verdict code s.graph.calls f r b := by
  unfold visit verdict
  by_cases hcode : b.code = []
  · simp [hcode]
  cases hkept : kept s.graph b.succs with
  | none => simp [hcode, hkept, kept_eq_none.mp hkept]
  | some rs =>
    have hnil : none ∉ b.succs := fun hmem => by simp [kept_eq_none.mpr hmem] at hkept
    have hcalls : ∀ b', (s.graph.setBlock r b').calls = s.graph.calls := fun _ => rfl
    simp only [hcode, List.isEmpty_eq_false_iff.mpr hcode, List.contains_iff_mem, hnil, hkept,
      Bool.false_eq_true, ↓reduceIte, recordAll_eq, hcalls]
    cases (Note.ofCode code s.graph.calls f b.code).2 <;> rfl

theorem visit_of_verdict (h : verdict code s.graph.calls f r b = none) :
    visit code { s with stack } f r b = (s.next code f stack r b, none) := by
  have ho : (visit code { s with stack } f r b).2 = none := by rw [visit_snd]; exact h
  rcases visit_cases (Prod.mk.eta (p := visit code { s with stack } f r b)).symm with
    ⟨-, -, he⟩ | ⟨-, -, he⟩ | ⟨_, -, he, -⟩ | ⟨-, -, -, -, rs, hrs, hs⟩
  · simp [ho] at he
  · simp [ho] at he
  · simp [ho] at he
  · refine Prod.ext (hs.trans ?_) ho
    rw [noteAll_noted]
    simp [schedule, next, frames, mark, prune, ← hrs]

theorem verdict_eq_none {calls : Array Call} :
    verdict code calls f r b = none ↔
      b.code ≠ [] ∧ none ∉ b.succs ∧ (Note.ofCode code calls f b.code).2 = none := by
  unfold verdict
  split
  · simp_all
  · split <;> simp_all

theorem visited_next (hr : r < s.seen.size) :
    (s.next code f stack r b).visited = insert r s.visited := visited_mark hr

theorem next_block (hb : s.graph.blocks[r]? = some b) :
    (s.next code f stack r b).graph.blocks[r]? =
      some { b with succs := b.succs.filter s.graph.isLive } := by
  have hlt : r < s.graph.blocks.size := (Array.getElem?_eq_some_iff.mp hb).1
  simp [next, prune, Graph.getElem?_setBlock, hlt]

theorem Sound.untouched (h : s.Sound code g entry) (hb : g.blocks[r]? = some b)
    (hr : r ∉ s.visited) : s.graph.blocks[r]? = some b := by
  obtain ⟨succs, hb', hsame, -⟩ := h.pruned.block hb
  rw [hb', hsame hr]

theorem Sound.next (h : s.Sound code g entry) (hstack : s.stack.dropWhile s.isSeen = f :: stack)
    (hr : f.block = some r) (hb : s.graph.blocks[r]? = some b)
    (hv : verdict code s.graph.calls f r b = none) :
    (s.next code f stack r b).Sound code g entry :=
  h.visit (mem_of_dropWhile hstack).1 (mem_of_dropWhile hstack).2 (isSeen_of_dropWhile hstack) hr hb
    (visit_of_verdict hv)

theorem Sound.count_lt (h : s.Sound code g entry) (hr : r ∉ s.visited) (hlt : r < s.seen.size) :
    s.count < g.blocks.size := by
  have hsub : insert r s.visited ⊆ { q | q < s.seen.size } :=
    Set.insert_subset hlt s.visited_subset
  have hcard := Set.ncard_le_ncard hsub (Set.finite_lt_nat _)
  rw [Set.ncard_insert_of_notMem hr s.visited_finite, ← h.count, h.seen] at hcard
  simpa [Set.ncard_eq_toFinset_card'] using hcard

theorem step_of_dropWhile (hstack : s.stack.dropWhile s.isSeen = f :: stack)
    (hr : f.block = some r) (hb : s.graph.blocks[r]? = some b) :
    s.step code = some (visit code { s with stack } f r b) := by
  simp [step, hstack, hr, hb]

/-- A run with enough steps gives what the walk comes to. -/
theorem Ends.run (h : Ends code s o) (hs : s.Sound code g entry)
    (hn : g.blocks.size ≤ n + s.count) : outcome (s.run code n) = o := by
  induction h generalizing n with
  | @done s hstack =>
    unfold Sweep.run
    have hstep : s.step code = none := by simp [Sweep.step, hstack]
    rw [hstep]
    rfl
  | @step s f stack r b o hstack hr hb hv _ ih =>
    have hnew := not_mem_visited (isSeen_of_dropWhile hstack) hr
    have hlt := hs.count_lt hnew (hs.block hnew hb).2
    obtain ⟨n, rfl⟩ : ∃ k, n = k + 1 := ⟨n - 1, by omega⟩
    unfold Sweep.run
    rw [step_of_dropWhile hstack hr hb, visit_of_verdict hv]
    refine ih (hs.next hstack hr hb hv) ?_
    show _ ≤ n + (s.count + 1)
    omega
  | @fail s f stack r b e hstack hr hb hv =>
    have hnew := not_mem_visited (isSeen_of_dropWhile hstack) hr
    have hlt := hs.count_lt hnew (hs.block hnew hb).2
    obtain ⟨n, rfl⟩ : ∃ k, n = k + 1 := ⟨n - 1, by omega⟩
    have ho : (visit code { s with stack } f r b).2 = some e := by rw [visit_snd]; exact hv
    unfold Sweep.run
    rw [step_of_dropWhile hstack hr hb]
    cases hvisit : visit code { s with stack } f r b with
    | mk s' o =>
      obtain rfl : o = some e := by simpa [hvisit] using ho
      rfl

/-- A run with enough steps follows the walk to its end, unless it has nowhere to go. -/
theorem ends_of_run (hs : s.Sound code g entry) (hn : g.blocks.size ≤ n + s.count) :
    Ends code s (outcome (s.run code n)) ∨
      (outcome (s.run code n) = .error (.fault .absent) ∧
        ¬ (g.InRangeFrom code entry ∧ code.Rooted)) := by
  -- the rest of the run ends as the whole run does
  refine run_induction
    (P := fun n t => t.Sound code g entry ∧ g.blocks.size ≤ n + t.count ∧
      ∀ o, Ends code t o → Ends code s o)
    (Q := fun t o => Ends code s (outcome (t, o)) ∨ (outcome (t, o) = .error (.fault .absent) ∧
      ¬ (g.InRangeFrom code entry ∧ code.Rooted))) ?_ ?_ ?_ ?_
    ⟨hs, hn, fun _ h => h⟩
  · rintro n t ⟨-, -, hrest⟩ hstack
    exact .inl (hrest _ (.done hstack))
  · rintro n t f stack r b t' ⟨ht, hn, hrest⟩ hstack hseen hr hb hv
    have hverdict : verdict code t.graph.calls f r b = none := by
      simpa [hv] using (visit_snd code { t with stack } f r b).symm
    rw [visit_of_verdict hverdict] at hv
    obtain rfl := (Prod.mk.inj hv).1
    refine ⟨ht.next hstack hr hb hverdict, ?_, fun o h => hrest o (.step hstack hr hb hverdict h)⟩
    show _ ≤ n + (t.count + 1)
    omega
  · rintro n t f stack r b t' e ⟨-, -, hrest⟩ hstack hseen hr hb hv
    have hverdict : verdict code t.graph.calls f r b = some e := by
      simpa [hv] using (visit_snd code { t with stack } f r b).symm
    exact .inl (hrest _ (.fail hstack hr hb hverdict))
  · rintro n t f stack ⟨ht, hn, -⟩ hstack hseen hstuck
    exact .inr ⟨rfl, ht.not_stuck (mem_of_dropWhile hstack).1 hseen hn hstuck⟩

theorem Ends.block (h : Ends code s (.ok t)) (hs : s.Sound code g entry) (hq : q ∈ s.visited) :
    q ∈ t.visited ∧ t.graph.blocks[q]? = s.graph.blocks[q]? := by
  generalize ho : Except.ok (ε := Failure) t = o at h
  induction h with
  | done =>
    cases ho
    exact ⟨hq, rfl⟩
  | @step s f stack r b o hstack hr hb hv _ ih =>
    have hnew := not_mem_visited (isSeen_of_dropWhile hstack) hr
    have hne : r ≠ q := fun h => hnew (h ▸ hq)
    have hq' : q ∈ (s.next code f stack r b).visited := by
      rw [visited_next (hs.block hnew hb).2]
      exact Set.mem_insert_of_mem r hq
    obtain ⟨hmem, hblock⟩ := ih (hs.next hstack hr hb hv) hq' ho
    refine ⟨hmem, hblock.trans ?_⟩
    simp [next, prune, Graph.getElem?_setBlock, hne]
  | fail => cases ho

theorem Ends.calls (h : Ends code s (.ok t)) : t.graph.calls = s.graph.calls := by
  generalize ho : Except.ok (ε := Failure) t = o at h
  induction h with
  | done =>
    cases ho
    rfl
  | step _ _ _ _ _ ih => exact ih ho
  | fail => cases ho

theorem Ends.run_start (h : Ends code (start g entry root) o)
    (hroot : code.body? entry = some root) :
    outcome ((start g entry root).run code g.blocks.size) = o :=
  h.run (sound_start hroot) (Nat.le_add_right _ _)

theorem Ends.complete (h : Ends code (start g entry root) (.ok t))
    (hroot : code.body? entry = some root) :
    t.Sound code g entry ∧ t.Complete code g entry ∧ t.stack = [] := by
  obtain ⟨hsound, hend, -⟩ := Sweep.run_start (g := g) hroot
  rw [outcome_ok.mp (h.run_start hroot)] at hsound hend
  exact ⟨hsound, hend rfl⟩

end

end Linkage.Sweep

namespace Linkage.Program

section
variable {code : Registry} {g : Graph} {p : Program} {root : BlockRef} {t : Sweep}

theorem cleanup_of_ends (hroot : code.body? p.entry = some root)
    (h : Sweep.Ends code (.start g p.entry root) (.ok t)) :
    p.cleanup code g = ⟨t.graph, ⟨p.entry, t.reachable, t.count⟩, none⟩ ∧
      ∀ r, p.Visits code g r ↔ r ∈ t.visited := by
  have hsweep : p.sweep code g root = (t, none) := Sweep.outcome_ok.mp (h.run_start hroot)
  refine ⟨?_, fun r => ?_⟩
  · rw [cleanup_of_some hroot, hsweep]
    rfl
  · rw [visits_iff hroot, hsweep]

theorem failure_of_ends (hroot : code.body? p.entry = some root)
    (h : Sweep.Ends code (.start g p.entry root) (.error e)) :
    (p.cleanup code g).failure = some e := by
  rw [cleanup_of_some hroot]
  exact Sweep.outcome_error.mp (h.run_start hroot)

theorem ends_of_cleanup (hok : (p.cleanup code g).failure = none) :
    ∃ root t, code.body? p.entry = some root ∧
      Sweep.Ends code (.start g p.entry root) (.ok t) := by
  cases hroot : code.body? p.entry with
  | none => simp [cleanup_of_none hroot] at hok
  | some root =>
    rw [cleanup_of_some hroot] at hok
    have hrun : Sweep.outcome ((Sweep.start g p.entry root).run code g.blocks.size) =
        .ok (p.sweep code g root).1 := Sweep.outcome_ok.mpr (Prod.ext rfl hok)
    have hends := Sweep.ends_of_run (Sweep.sound_start hroot) (Nat.le_add_right g.blocks.size _)
    rw [hrun] at hends
    exact ⟨root, _, rfl, hends.resolve_right fun h => nomatch h.1⟩

end

end Linkage.Program
