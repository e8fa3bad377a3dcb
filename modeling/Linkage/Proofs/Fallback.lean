import Linkage.Proofs.Building
import Linkage.Proofs.Runs

/-!
# Callees to fall back on

A call that nothing can dispatch to falls back on its static callee. If that one is not registered,
the call adds nothing to a cleanup. If it is registered without a root, the walk comes to a block
that is not there, and this is the only way in which a cleanup of what was built can break off
without a report.
-/

namespace Linkage

-- ---------------------------------------------------------------------------
-- Callees without a root
-- ---------------------------------------------------------------------------

/-- The call falls back on a callee that is registered without a root. -/
def Call.Dangles (code : Registry) (c : Call) : Prop :=
  c.targets = some [] ∧ ∃ m, c.callee = some m ∧ code.find m = some none

def Block.Dangles (code : Registry) (calls : Array Call) (b : Block) : Prop :=
  ∃ site c, .call site ∈ b.code ∧ calls[site]? = some c ∧ c.Dangles code

def Registry.Dangles (code : Registry) (g : Graph) (entry : MemberId) : Prop :=
  ∃ m r b, code.Meets g entry m r ∧ g.blocks[r]? = some b ∧ b.Dangles code g.calls

theorem Registry.Meets.exists_root {code : Registry} {g : Graph} {entry : MemberId}
    (h : code.Meets g entry m r) : ∃ root, code.body? entry = some root := by
  induction h with
  | entry hroot => exact ⟨_, hroot⟩
  | succ _ _ ih => exact ih
  | call _ _ _ _ _ _ ih => exact ih

namespace Sweep

section
variable {code : Registry} {g : Graph} {entry : MemberId} {s t : Sweep} {f : Frame}
  {stack : List Frame} {root r q : BlockRef} {b : Block}

/-- A frame without a block stays on the stack until the walk breaks off at it. -/
theorem Ends.block_ne_none (h : Ends code s (.ok t)) (hf : f ∈ s.stack) : f.block ≠ none := by
  intro hnil
  have hnew : ∀ s : Sweep, s.isSeen f = false := fun s => by simp [isSeen, hnil]
  generalize ho : Except.ok (ε := Failure) t = o at h
  induction h with
  | @done s hstack =>
    have hseen := List.dropWhile_eq_nil_iff.mp hstack f hf
    simp [hnew] at hseen
  | @step s f' stack r b o hstack hr hb hv _ ih =>
    rcases mem_stack hstack hf with hseen | rfl | hf
    · simp [hnew] at hseen
    · simp [hnil] at hr
    · exact ih (List.mem_append_right _ hf) ho
  | fail => cases ho

theorem mem_frames_of_dangles (hv : verdict code g.calls f r b = none)
    (hb : b.Dangles code g.calls) : ∃ m, ⟨none, m⟩ ∈ frames code g f b := by
  obtain ⟨site, c, hi, hc, hts, m, hcallee, hfind⟩ := hb
  obtain ⟨-, -, hnotes⟩ := verdict_eq_none.mp hv
  obtain ⟨hnone, hall⟩ := Note.ofCode_none hnotes hi
  obtain ⟨root, hroot, hn⟩ :=
    Note.mem_ofInstruction_of_runs hnone hc (.callee hts hcallee (by simp [hfind]))
  obtain rfl := Option.some.inj (hfind.symm.trans hroot)
  refine ⟨m, List.mem_append_right _ (List.mem_reverse.mpr ?_)⟩
  exact List.mem_filterMap.mpr ⟨_, hall _ hn, rfl⟩

theorem dangles_of_mem_frames (hv : verdict code g.calls f r b = none)
    (hf : ⟨none, m⟩ ∈ frames code g f b) : b.Dangles code g.calls := by
  obtain ⟨hcode, hsuccs, hnotes⟩ := verdict_eq_none.mp hv
  rcases List.mem_append.mp hf with hf | hf
  · obtain ⟨q, hq, heq⟩ := List.mem_map.mp hf
    obtain rfl : q = none := congrArg Frame.block heq
    exact absurd (List.mem_of_mem_filter hq) hsuccs
  · obtain ⟨⟨m', body⟩, hn, hframe⟩ := List.mem_filterMap.mp (List.mem_reverse.mp hf)
    obtain ⟨root, rfl, heq⟩ := Option.map_eq_some_iff.mp hframe
    obtain ⟨rfl, rfl⟩ : root = none ∧ m' = m :=
      ⟨congrArg Frame.block heq, congrArg Frame.member heq⟩
    obtain ⟨i, hi, site, c, rfl, hc, hrun, hfind⟩ := Note.of_mem_ofCode hn
    cases hrun with
    | target hts hmem =>
      -- a target without a root is reported, so the block would not have passed
      have hmissing : b.Flaw code g.calls (.missingCode m') (some m') :=
        .missing hi hc hts hmem (by simp [Registry.body?, hfind])
      exact absurd hmissing (Note.no_flaw_of_ofCode_none hnotes hcode hsuccs)
    | callee hts hcallee _ => exact ⟨site, c, hi, hc, hts, m', hcallee, hfind⟩

/-- A walk that comes to its end has processed no block with a dangling call. -/
theorem Ends.not_dangles (h : Ends code s (.ok t)) (hs : s.Sound code g entry)
    (hq : q ∈ t.visited) (hold : q ∉ s.visited) (hb : g.blocks[q]? = some b) :
    ¬ b.Dangles code g.calls := by
  generalize ho : Except.ok (ε := Failure) t = o at h
  induction h with
  | done =>
    cases ho
    exact absurd hq hold
  | @step s f stack r b' o hstack hr hb' hv hrest ih =>
    subst ho
    have hnew := not_mem_visited (isSeen_of_dropWhile hstack) hr
    obtain ⟨hb₀, hlt⟩ := hs.block hnew hb'
    by_cases hrq : r = q
    · subst hrq
      obtain rfl := Option.some.inj (hb₀.symm.trans hb)
      intro hdangles
      rw [← hs.pruned.calls] at hdangles
      obtain ⟨m, hm⟩ := mem_frames_of_dangles hv hdangles
      exact hrest.block_ne_none (List.mem_append_left _ hm) rfl
    · refine ih (hs.next hstack hr hb' hv) ?_ rfl
      rw [visited_next hlt]
      exact fun hmem => hmem.elim (Ne.symm hrq) hold
  | fail => cases ho

/-- If all that is met is there, a walk breaks off without a report only at a dangling call. -/
theorem dangles_of_fault (hroot : code.body? entry = some root) (hrange : g.InRangeFrom code entry)
    (hfault : ((start g entry root).run code g.blocks.size).2 = some (.fault e)) :
    code.Dangles g entry := by
  refine run_induction
    (P := fun n s => s.Sound code g entry ∧ g.blocks.size ≤ n + s.count ∧
      ∀ f ∈ s.stack, f.block = none → code.Dangles g entry)
    (Q := fun _ o => ∀ e, o = some (.fault e) → code.Dangles g entry) ?_ ?_ ?_ ?_
    ⟨sound_start hroot, Nat.le_add_right _ _, ?_⟩ e hfault
  · simp
  · rintro n s f stack r b s' ⟨hs, hn, hnil⟩ hstack hseen hr hb hv
    have hverdict : verdict code s.graph.calls f r b = none := by
      simpa [hv] using (visit_snd code { s with stack } f r b).symm
    rw [visit_of_verdict hverdict] at hv
    obtain rfl := (Prod.mk.inj hv).1
    refine ⟨hs.next hstack hr hb hverdict, ?_, ?_⟩
    · show _ ≤ n + (s.count + 1)
      omega
    · rintro ⟨block, m⟩ hf rfl
      rcases List.mem_append.mp hf with hf | hf
      · have hdangles := dangles_of_mem_frames hverdict hf
        rw [hs.pruned.calls] at hdangles
        obtain ⟨hb₀, -⟩ := hs.block (not_mem_visited hseen hr) hb
        exact ⟨_, r, b, hs.meets f (mem_of_dropWhile hstack).1 r hr, hb₀, hdangles⟩
      · exact hnil _ ((mem_of_dropWhile hstack).2 hf) rfl
  · rintro n s f stack r b s' e ⟨hs, -, -⟩ hstack hseen hr hb hv e' he
    obtain rfl := Option.some.inj he
    rcases hs.blames (mem_of_dropWhile hstack).1 hseen hr hb hv with
      ⟨_, _, _, _, _, -, -, -, -, -, heq⟩ | ⟨-, hout⟩
    · cases heq
    · exact absurd hrange hout
  · rintro n s f stack ⟨hs, hn, hnil⟩ hstack hseen hstuck e he
    have hf := (mem_of_dropWhile hstack).1
    exact hnil f hf (hs.nil_of_stuck hf hseen hn hstuck hrange)
  · intro f hf hnil
    obtain rfl := List.mem_singleton.mp hf
    cases hnil

end

end Sweep

-- ---------------------------------------------------------------------------
-- Callees that are not registered
-- ---------------------------------------------------------------------------

/-- The call without its callee, if that is not registered. -/
def Call.forget (code : Registry) (c : Call) : Call :=
  if (c.callee.bind code.find).isNone then { c with callee := none } else c

def Graph.forget (code : Registry) (g : Graph) : Graph :=
  { g with calls := g.calls.map (Call.forget code) }

section
variable {code : Registry}

theorem Note.ofCall_forget (f : Frame) (c : Call) :
    ofCall code f (c.forget code) = ofCall code f c := by
  rw [Call.forget]
  split
  case isTrue hnone =>
    have hcallee : ofCallee code none = ofCallee code c.callee := by
      cases hm : c.callee with
      | none => rfl
      | some m =>
        have hfind : code.find m = none := by simpa [hm] using hnone
        simp [ofCallee, hfind]
    simp only [ofCall, hcallee]
  case isFalse => rfl

theorem Note.ofCode_forget (calls : Array Call) (f : Frame) (is : List Instruction) :
    ofCode code (calls.map (Call.forget code)) f is = ofCode code calls f is := by
  have hone : ∀ i, ofInstruction code (calls.map (Call.forget code)) f i =
      ofInstruction code calls f i := by
    intro i
    cases i with
    | call site =>
      simp only [ofInstruction, Array.getElem?_map]
      cases calls[site]? with
      | none => rfl
      | some c => exact ofCall_forget f c
    | _ => rfl
  induction is with
  | nil => rfl
  | cons i rest ih => simp only [ofCode, hone, ih]

namespace Sweep

def forget (code : Registry) (s : Sweep) : Sweep := { s with graph := s.graph.forget code }

theorem kept_forget (g : Graph) (succs : List (Option BlockRef)) :
    kept (g.forget code) succs = kept g succs := by
  induction succs with
  | nil => rfl
  | cons q rest ih =>
    cases q with
    | none => rfl
    | some r =>
      simp only [kept, ih]
      rfl

theorem visit_forget (s : Sweep) (f : Frame) (r : BlockRef) (b : Block) :
    visit code (s.forget code) f r b =
      ((visit code s f r b).1.forget code, (visit code s f r b).2) := by
  have hkept : kept (s.forget code).graph b.succs = kept s.graph b.succs := kept_forget _ _
  unfold visit
  simp only [hkept]
  split
  · rfl
  · split
    · rfl
    · simp only [recordAll_eq, noteAll_noted, forget, Graph.forget, Graph.setBlock,
        Note.ofCode_forget]
      cases (Note.ofCode code s.graph.calls f b.code).2 <;> rfl

theorem step_forget (s : Sweep) :
    (s.forget code).step code = (s.step code).map fun x => (x.1.forget code, x.2) := by
  obtain ⟨hstack, hstep⟩ | ⟨f, stack, hstack, -, hstep⟩ := step_cases code s
  all_goals
    have hstack' : (s.forget code).stack.dropWhile (s.forget code).isSeen = _ := hstack
  · rw [hstep]
    simp [step, hstack']
  · obtain ⟨hnone, hstep⟩ | ⟨r, b, hr, hb, hstep⟩ := hstep
    · have hnone' : f.block.bind ((s.forget code).graph.blocks[·]?) = none := hnone
      rw [hstep]
      simp [step, hstack', hnone']
    · rw [step_of_dropWhile hstack' hr hb, hstep]
      exact congrArg some (visit_forget { s with stack } f r b)

theorem run_forget (n : Nat) (s : Sweep) :
    (s.forget code).run code n = ((s.run code n).1.forget code, (s.run code n).2) := by
  induction n generalizing s with
  | zero =>
    unfold run
    rw [step_forget]
    cases s.step code <;> rfl
  | succ n ih =>
    unfold run
    rw [step_forget]
    cases s.step code with
    | none => rfl
    | some x =>
      obtain ⟨s', failure⟩ := x
      cases failure with
      | none => exact ih s'
      | some e => rfl

end Sweep

end

-- ---------------------------------------------------------------------------
-- Cleanup
-- ---------------------------------------------------------------------------

namespace Program

section
variable {code : Registry} {g : Graph} {p : Program}

theorem cleanup_forget (code : Registry) (g : Graph) (p : Program) :
    p.cleanup code (g.forget code) =
      { p.cleanup code g with graph := (p.cleanup code g).graph.forget code } := by
  cases hroot : code.body? p.entry with
  | none => rw [cleanup_of_none hroot, cleanup_of_none hroot]
  | some root =>
    have hsweep : p.sweep code (g.forget code) root =
        ((p.sweep code g root).1.forget code, (p.sweep code g root).2) :=
      Sweep.run_forget g.blocks.size (.start g p.entry root)
    rw [cleanup_of_some hroot, cleanup_of_some hroot, hsweep]
    rfl

theorem dangles_of_cleanup (hrange : g.InRange code)
    (hfault : (p.cleanup code g).failure = some (.fault e)) :
    e = .absent ∧ code.Dangles g p.entry := by
  cases hroot : code.body? p.entry with
  | none => simp [cleanup_of_none hroot] at hfault
  | some root =>
    rw [cleanup_of_some hroot] at hfault
    refine ⟨?_, Sweep.dangles_of_fault hroot hrange.from hfault⟩
    rcases (Sweep.run_start hroot).2.2 _ hfault with ⟨_, _, _, _, _, -, -, -, -, -, heq⟩ | ⟨heq, -⟩
    · cases heq
    · exact Failure.fault.inj heq

theorem cleanup_of_dangles (h : code.Dangles g p.entry) : (p.cleanup code g).failure ≠ none := by
  intro hok
  obtain ⟨root, t, hroot, hends⟩ := ends_of_cleanup hok
  obtain ⟨m, r, b, hmeets, hb, hdangles⟩ := h
  obtain ⟨-, hcomplete, hstack⟩ := hends.complete hroot
  rcases hcomplete.covers_of_meets hstack hmeets with hvisited | ⟨f, hf, -⟩ | ⟨b', hb', hcode, -⟩
  · have hold : r ∉ (Sweep.start g p.entry root).visited := by simp [Sweep.visited_start]
    exact hends.not_dangles (Sweep.sound_start hroot) hvisited hold hb hdangles
  · simp [hstack] at hf
  · -- a dead leaf calls nothing
    obtain rfl := Option.some.inj (hb.symm.trans hb')
    obtain ⟨site, c, hi, -⟩ := hdangles
    simp [hcode] at hi

end

/-- A cleanup breaks off without a report only if a call in reach falls back on a callee that is
registered without a root. If there is such a call, it never succeeds, and it breaks off unless
something else is wrong in reach. A callee to fall back on that is not registered has no influence
at all: the cleanup is the same without it. -/
theorem cleanup_falls_back (code : Registry) (g : Graph) (p : Program) (hrange : g.InRange code) :
    (∀ f, (p.cleanup code g).failure = some (.fault f) → f = .absent ∧ code.Dangles g p.entry) ∧
      (code.Dangles g p.entry → ∃ e, (p.cleanup code g).failure = some e ∧
        (e = .fault .absent ∨ ∃ m r b kind who, code.Meets g p.entry m r ∧
          g.blocks[r]? = some b ∧ b.Flaw code g.calls kind who)) ∧
      p.cleanup code (g.forget code) =
        { p.cleanup code g with graph := (p.cleanup code g).graph.forget code } := by
  refine ⟨fun f => dangles_of_cleanup hrange, fun hdangles => ?_, cleanup_forget code g p⟩
  obtain ⟨e, he⟩ := Option.ne_none_iff_exists'.mp (cleanup_of_dangles hdangles)
  refine ⟨e, he, ?_⟩
  obtain ⟨m, r, b, hmeets, -⟩ := hdangles
  obtain ⟨root, hroot⟩ := hmeets.exists_root
  rw [cleanup_of_some hroot] at he
  rcases (Sweep.run_start hroot).2.2 e he with
    ⟨m, r, b, kind, who, -, hmeets, hb, hflaw, -, -⟩ | ⟨rfl, -⟩
  · exact .inr ⟨m, r, b, kind, who, hmeets, hb, hflaw⟩
  · exact .inl rfl

/-- A body that calls a member which is registered without a root, and another which is not
registered. -/
def fallbackGraph : Graph :=
  { Graph.applyAll {} [.terminal (.ret .absent), .sequence (some 0) [.call 1, .call 0]] with
    calls := #[{ callee := some 1, targets := some [] }, { callee := some 2, targets := some [] }] }

def fallbackCode : Registry := [(0, some 0), (1, none)]

theorem cleanup_falls_back_on_nothing :
    fallbackGraph.InRange fallbackCode ∧
      (cleanup fallbackCode fallbackGraph { entry := 0 }).failure = some (.fault .absent) ∧
      fallbackCode.Dangles fallbackGraph 0 :=
  ⟨by decide, by decide,
    ((cleanup_falls_back fallbackCode fallbackGraph { entry := 0 } (by decide)).1 .absent
      (by decide)).2⟩

/-- A cleanup of what was built may break off without a report. -/
theorem cleanup_breaks_off :
    ¬ ∀ (ops : List Operation) (calls : Array Call) (code : Registry) (p : Program),
      Graph.OffersAll {} ops → ({ Graph.applyAll {} ops with calls } : Graph).InRange code →
        ∀ f, (p.cleanup code { Graph.applyAll {} ops with calls }).failure ≠ some (.fault f) := by
  intro h
  exact h [.terminal (.call 0)] #[{ callee := some 1, targets := some [] }]
    [(0, some 0), (1, none)] { entry := 0 } (by decide) (by decide) .absent (by decide)

end Program

end Linkage
