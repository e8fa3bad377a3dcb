import Linkage.Proofs.Notes
import Linkage.Proofs.Pruning
import Mathlib.Data.List.TakeWhile
import Mathlib.Data.Set.Card

/-!
# The steps of a walk

What processing a block does to a walk (`Sweep.visit_cases`), and what a run keeps, given what its
steps keep (`Sweep.run_induction`). Two invariants follow. `Sweep.Sound` holds up to the end of
every run, also of one that fails: the graph is pruned from the one at the start, and all that was
found is in reach. `Sweep.Complete` holds as long as nothing failed: whatever a processed block
leads to is processed, waiting on the stack, or a dead leaf.
-/

namespace Linkage

def Graph.isLive (g : Graph) (q : Option BlockRef) : Bool :=
  !(q.bind (g.blocks[·]?)).any Block.isDeadLeaf

theorem Graph.deadLeaf_of_not_isLive {g : Graph} {q : Option BlockRef} (h : g.isLive q = false) :
    ∃ t, q = some t ∧ g.DeadLeaf t := by
  cases q with
  | none => simp [Graph.isLive] at h
  | some t => exact ⟨t, rfl, Graph.deadLeaf_iff.mp (by simpa [Graph.isLive] using h)⟩

theorem Graph.isLive_some {g : Graph} {t : BlockRef} :
    g.isLive (some t) = false ↔ g.DeadLeaf t := by
  rw [← Graph.deadLeaf_iff]
  simp [Graph.isLive]

namespace Sweep

def visited (s : Sweep) : Set BlockRef := { r | s.seen.getD r false = true }

def mark (s : Sweep) (r : BlockRef) : Sweep :=
  { s with seen := s.seen.setIfInBounds r true, count := s.count + 1 }

def prune (s : Sweep) (r : BlockRef) (b : Block) : Sweep :=
  { s with graph := s.graph.setBlock r { b with succs := b.succs.filter s.graph.isLive } }

def schedule (s : Sweep) (succs : List BlockRef) (m : MemberId) : Sweep :=
  { s with stack := succs.map (fun r => ⟨some r, m⟩) ++ s.stack }

section
variable {code : Registry} {s s' : Sweep} {f : Frame} {stack : List Frame} {r : BlockRef}
  {b : Block}

theorem kept_eq_none {g : Graph} {succs : List (Option BlockRef)} :
    kept g succs = none ↔ none ∈ succs := by
  induction succs with
  | nil => simp [kept]
  | cons q rest ih => cases q <;> simp [kept, ih]

theorem kept_eq_some {g : Graph} {succs : List (Option BlockRef)} {rs : List BlockRef}
    (h : kept g succs = some rs) : rs.map some = succs.filter g.isLive := by
  induction succs generalizing rs with
  | nil => simp_all [kept]
  | cons q rest ih =>
    cases q with
    | none => simp [kept] at h
    | some t =>
      obtain ⟨rs', hrs, rfl⟩ := Option.map_eq_some_iff.mp h
      by_cases hd : (g.blocks[t]?).any Block.isDeadLeaf = true
      · simp [hd, Graph.isLive, ← ih hrs]
      · simp [hd, Graph.isLive, ← ih hrs]

/-- Processing a block ends in one of four ways. -/
theorem visit_cases (h : visit code s f r b = (s', o)) :
    (b.code = [] ∧ s' = s.mark r ∧ o = some (.defect ⟨.emptyBlock, some f.member, some r⟩)) ∨
    (none ∈ b.succs ∧ s' = s.mark r ∧ o = some (.defect ⟨.nilSuccessor, some f.member, some r⟩)) ∨
    (∃ e, (Note.ofCode code s.graph.calls f b.code).2 = some e ∧ o = some e ∧
      s' = ((s.mark r).prune r b).noteAll (Note.ofCode code s.graph.calls f b.code).1) ∨
    (b.code ≠ [] ∧ none ∉ b.succs ∧ (Note.ofCode code s.graph.calls f b.code).2 = none ∧ o = none ∧
      ∃ rs, rs.map some = b.succs.filter s.graph.isLive ∧
        s' = (((s.mark r).prune r b).noteAll
          (Note.ofCode code s.graph.calls f b.code).1).schedule rs f.member) := by
  unfold visit at h
  by_cases hcode : b.code = []
  · simp only [hcode, List.isEmpty_nil, ↓reduceIte, Prod.mk.injEq] at h
    exact .inl ⟨hcode, h.1.symm, h.2.symm⟩
  simp only [List.isEmpty_eq_false_iff.mpr hcode, Bool.false_eq_true, ↓reduceIte] at h
  cases hkept : kept s.graph b.succs with
  | none =>
    simp only [hkept, Prod.mk.injEq] at h
    exact .inr (.inl ⟨kept_eq_none.mp hkept, h.1.symm, h.2.symm⟩)
  | some rs =>
    have hnil : none ∉ b.succs := fun hmem => by simp [kept_eq_none.mpr hmem] at hkept
    have hrs := kept_eq_some hkept
    simp only [hkept, hrs, recordAll_eq] at h
    cases hnotes : (Note.ofCode code s.graph.calls f b.code).2 with
    | some e =>
      have hfail : (Note.ofCode code ((s.mark r).prune r b).graph.calls f b.code).2 = some e :=
        hnotes
      simp only [mark, prune] at hfail
      simp only [hfail, Prod.mk.injEq] at h
      exact .inr (.inr (.inl ⟨e, rfl, h.2.symm, h.1.symm⟩))
    | none =>
      have hfail : (Note.ofCode code ((s.mark r).prune r b).graph.calls f b.code).2 = none := hnotes
      simp only [mark, prune] at hfail
      simp only [hfail, Prod.mk.injEq] at h
      exact .inr (.inr (.inr ⟨hcode, hnil, rfl, h.2.symm, rs, hrs, h.1.symm⟩))

theorem visit_count (h : visit code s f r b = (s', o)) : s'.count = s.count + 1 := by
  have hnote : ∀ (t : Sweep) notes, (t.noteAll notes).count = t.count := by
    intro t notes
    obtain ⟨_, heq, -⟩ := noteAll_eq t notes
    rw [heq]
  rcases visit_cases h with ⟨-, rfl, -⟩ | ⟨-, rfl, -⟩ | ⟨_, -, -, rfl⟩ | ⟨-, -, -, -, rs, -, rfl⟩
  · rfl
  · rfl
  · exact hnote _ _
  · exact hnote _ _

theorem isSeen_of_dropWhile (hstack : s.stack.dropWhile s.isSeen = f :: stack) :
    s.isSeen f = false := by
  simpa [hstack] using List.head?_dropWhile_not s.isSeen s.stack

theorem mem_of_dropWhile (hstack : s.stack.dropWhile s.isSeen = f :: stack) :
    f ∈ s.stack ∧ stack ⊆ s.stack := by
  have hsub := (List.dropWhile_suffix (l := s.stack) s.isSeen).subset
  rw [hstack] at hsub
  exact ⟨hsub List.mem_cons_self, fun x hx => hsub (List.mem_cons_of_mem _ hx)⟩

theorem step_cases (code : Registry) (s : Sweep) :
    (s.stack.dropWhile s.isSeen = [] ∧ s.step code = none) ∨
    ∃ f stack, s.stack.dropWhile s.isSeen = f :: stack ∧ s.isSeen f = false ∧
      ((f.block.bind (s.graph.blocks[·]?) = none ∧ s.step code = some (s, some (.fault .absent))) ∨
        ∃ r b, f.block = some r ∧ s.graph.blocks[r]? = some b ∧
          s.step code = some (visit code { s with stack } f r b)) := by
  unfold step
  cases hstack : s.stack.dropWhile s.isSeen with
  | nil => exact .inl ⟨rfl, rfl⟩
  | cons f stack =>
    refine .inr ⟨f, stack, rfl, isSeen_of_dropWhile hstack, ?_⟩
    cases hr : f.block with
    | none => exact .inl ⟨rfl, by simp [hr]⟩
    | some r =>
      cases hb : s.graph.blocks[r]? with
      | none => exact .inl ⟨by simp [hb], by simp [hr, hb]⟩
      | some b => exact .inr ⟨r, b, rfl, hb, by simp [hr, hb]⟩

/-- What holds at the start of a run and is kept by every step, `n` steps being left, holds at its
end. A run fails in a step, or by having nowhere to go. -/
theorem run_induction {P : Nat → Sweep → Prop} {Q : Sweep → Option Failure → Prop}
    (done : ∀ {n s}, P n s → s.stack.dropWhile s.isSeen = [] → Q { s with stack := [] } none)
    (step : ∀ {n s f stack r b s'}, P (n + 1) s → s.stack.dropWhile s.isSeen = f :: stack →
      s.isSeen f = false → f.block = some r → s.graph.blocks[r]? = some b →
      visit code { s with stack } f r b = (s', none) → P n s')
    (fail : ∀ {n s f stack r b s' e}, P (n + 1) s → s.stack.dropWhile s.isSeen = f :: stack →
      s.isSeen f = false → f.block = some r → s.graph.blocks[r]? = some b →
      visit code { s with stack } f r b = (s', some e) → Q { s' with stack := [] } (some e))
    (stuck : ∀ {n s f stack}, P n s → s.stack.dropWhile s.isSeen = f :: stack →
      s.isSeen f = false → n = 0 ∨ f.block.bind (s.graph.blocks[·]?) = none →
      Q { s with stack := [] } (some (.fault .absent)))
    {n : Nat} {s : Sweep} (h : P n s) : Q (run code n s).1 (run code n s).2 := by
  induction n generalizing s with
  | zero =>
    unfold run
    obtain ⟨hstack, hstep⟩ | ⟨f, stack, hstack, hseen, hstep⟩ := step_cases code s
    · rw [hstep]
      exact done h hstack
    · obtain ⟨-, hstep⟩ | ⟨r, b, -, -, hstep⟩ := hstep
      all_goals
        rw [hstep]
        exact stuck h hstack hseen (.inl rfl)
  | succ n ih =>
    unfold run
    obtain ⟨hstack, hstep⟩ | ⟨f, stack, hstack, hseen, hstep⟩ := step_cases code s
    · rw [hstep]
      exact done h hstack
    · obtain ⟨hnone, hstep⟩ | ⟨r, b, hr, hb, hstep⟩ := hstep
      · rw [hstep]
        exact stuck h hstack hseen (.inr hnone)
      · rw [hstep]
        cases hv : visit code { s with stack } f r b with
        | mk s' o =>
          cases o with
          | none => exact ih (step h hstack hseen hr hb hv)
          | some e => exact fail h hstack hseen hr hb hv

end

-- ---------------------------------------------------------------------------
-- Soundness
-- ---------------------------------------------------------------------------

/-- What holds throughout a walk of `g` from `entry`. -/
structure Sound (code : Registry) (g : Graph) (entry : MemberId) (s : Sweep) : Prop where
  pruned : g.PrunedTo s.graph s.visited
  seen : s.seen.size = g.blocks.size
  count : s.count = s.visited.ncard
  head : s.reachable.head? = some entry
  nodup : s.reachable.Nodup
  member : ∀ f ∈ s.stack, f.member ∈ s.reachable
  meets : ∀ f ∈ s.stack, ∀ r, f.block = some r → code.Meets g entry f.member r
  nil : ∀ f ∈ s.stack, f.block = none → code.find f.member = some none
  least : ∀ S, code.Closed g entry S → ∀ m ∈ s.reachable, m ∈ S

section
variable {code : Registry} {g : Graph} {entry : MemberId} {s s' : Sweep} {f : Frame}
  {stack : List Frame} {r : BlockRef} {b : Block}

theorem visited_mark (hr : r < s.seen.size) : (s.mark r).visited = insert r s.visited := by
  ext q
  simp only [visited, mark, Set.mem_ofPred_eq, Set.mem_insert_iff, Array.getD_eq_getD_getElem?,
    Array.getElem?_setIfInBounds]
  by_cases h : r = q
  · subst h
    simp [hr]
  · simp [h, Ne.symm h]

theorem isSeen_iff (hr : f.block = some r) : s.isSeen f = true ↔ r ∈ s.visited := by
  simp [isSeen, hr, visited]

theorem not_mem_visited (h : s.isSeen f = false) (hr : f.block = some r) : r ∉ s.visited := by
  simpa [isSeen, hr, visited] using h

theorem visited_subset (s : Sweep) : s.visited ⊆ { r | r < s.seen.size } := by
  intro r hr
  by_contra hlt
  simp [visited, Array.getD_eq_getD_getElem?, Array.getElem?_eq_none (not_lt.mp hlt)] at hr

theorem visited_finite (s : Sweep) : s.visited.Finite :=
  (Set.finite_lt_nat _).subset s.visited_subset

theorem Sound.pop (h : s.Sound code g entry) (hsub : stack ⊆ s.stack) :
    { s with stack }.Sound code g entry where
  pruned := h.pruned
  seen := h.seen
  count := h.count
  head := h.head
  nodup := h.nodup
  member f hf := h.member f (hsub hf)
  meets f hf := h.meets f (hsub hf)
  nil f hf := h.nil f (hsub hf)
  least := h.least

theorem Sound.entry_mem (h : s.Sound code g entry) : entry ∈ s.reachable :=
  List.mem_of_mem_head? (by simp [h.head])

theorem Sound.block (h : s.Sound code g entry) (hr : r ∉ s.visited)
    (hb : s.graph.blocks[r]? = some b) : g.blocks[r]? = some b ∧ r < s.seen.size := by
  obtain ⟨b₀, hb₀, -, -, hsame⟩ := h.pruned.origin hb
  obtain rfl := hsame hr
  exact ⟨hb₀, h.seen ▸ (Array.getElem?_eq_some_iff.mp hb₀).1⟩

theorem Sound.mark (h : s.Sound code g entry) (hr : r ∉ s.visited) (hlt : r < s.seen.size) :
    (s.mark r).Sound code g entry where
  pruned := by
    rw [visited_mark hlt]
    exact h.pruned.mono (Set.subset_insert r _)
  seen := by simpa [Sweep.mark] using h.seen
  count := by
    rw [visited_mark hlt, Set.ncard_insert_of_notMem hr s.visited_finite, ← h.count]
    rfl
  head := h.head
  nodup := h.nodup
  member := h.member
  meets := h.meets
  nil := h.nil
  least := h.least

theorem Sound.prune (h : s.Sound code g entry) (hr : r ∉ s.visited)
    (hb : s.graph.blocks[r]? = some b) : ((s.mark r).prune r b).Sound code g entry where
  pruned := by
    have hstep := h.pruned.step hb hr s.graph.isLive
      fun q _ hq => Graph.deadLeaf_of_not_isLive hq
    rw [← visited_mark (h.block hr hb).2] at hstep
    exact hstep
  seen := by simpa [Sweep.mark, Sweep.prune] using h.seen
  count := (h.mark hr (h.block hr hb).2).count
  head := h.head
  nodup := h.nodup
  member := h.member
  meets := h.meets
  nil := h.nil
  least := h.least

theorem Sound.noteAll (h : s.Sound code g entry) (hm : code.Meets g entry m r)
    (hb : g.blocks[r]? = some b)
    (hnotes : ∀ n ∈ notes, ∃ i ∈ b.code, Note.Of code g.calls i n) :
    (s.noteAll notes).Sound code g entry := by
  obtain ⟨reachable, heq, hnodup, hpre, hmem⟩ := noteAll_eq s notes
  -- a frame that a note adds is for a callee of the block
  have hframe : ∀ f ∈ (notes.filterMap Note.frame?).reverse ++ s.stack, f ∈ s.stack ∨
      ∃ n ∈ notes, n.member = f.member ∧ n.body = some f.block := by
    intro f hf
    rcases List.mem_append.mp hf with hf | hf
    · obtain ⟨n, hn, hnf⟩ := List.mem_filterMap.mp (List.mem_reverse.mp hf)
      obtain ⟨root, hroot, rfl⟩ := Option.map_eq_some_iff.mp hnf
      exact .inr ⟨n, hn, rfl, hroot⟩
    · exact .inl hf
  have hcallee : ∀ n ∈ notes, ∀ root, n.body = some root →
      code.find n.member = some root ∧ ∃ site c, .call site ∈ b.code ∧ g.calls[site]? = some c ∧
        c.Runs code n.member := by
    intro n hn root hroot
    obtain ⟨i, hi, hof⟩ := hnotes n hn
    simp only [Note.Of, hroot] at hof
    obtain ⟨site, c, rfl, hc, hrun, hfind⟩ := hof
    exact ⟨hfind, site, c, hi, hc, hrun⟩
  rw [heq]
  refine ⟨h.pruned, h.seen, h.count, ?_, hnodup h.nodup, ?_, ?_, ?_, ?_⟩
  · obtain ⟨rest, rfl⟩ := hpre
    simp [List.head?_append, h.head]
  · intro f hf
    rcases hframe f hf with hf | ⟨n, hn, hmember, -⟩
    · exact (hmem _).mpr (.inl (h.member f hf))
    · exact (hmem _).mpr (.inr ⟨n, hn, hmember⟩)
  · intro f hf q hq
    rcases hframe f hf with hf | ⟨n, hn, hmember, hbody⟩
    · exact h.meets f hf q hq
    · obtain ⟨hfind, site, c, hi, hc, hrun⟩ := hcallee n hn _ hbody
      rw [hq] at hfind
      exact hmember ▸ .call hm hb hi hc hrun (Registry.body?_eq_some.mpr hfind)
  · intro f hf hnil
    rcases hframe f hf with hf | ⟨n, hn, hmember, hbody⟩
    · exact h.nil f hf hnil
    · rw [← hmember, ← hnil]
      exact (hcallee n hn _ hbody).1
  · intro S hS n hn
    rcases (hmem n).mp hn with hn | ⟨note, hnote, rfl⟩
    · exact h.least S hS n hn
    · obtain ⟨i, hi, hof⟩ := hnotes note hnote
      exact hS.mem_of_refers hm hb hi hof.refers

theorem Sound.schedule (h : s.Sound code g entry) (hm : m ∈ s.reachable)
    (hrs : ∀ q ∈ rs, code.Meets g entry m q) : (s.schedule rs m).Sound code g entry := by
  have hframe : ∀ f ∈ (s.schedule rs m).stack, f ∈ s.stack ∨ ∃ q ∈ rs, f = ⟨some q, m⟩ := by
    intro f hf
    rcases List.mem_append.mp hf with hf | hf
    · obtain ⟨q, hq, rfl⟩ := List.mem_map.mp hf
      exact .inr ⟨q, hq, rfl⟩
    · exact .inl hf
  refine ⟨h.pruned, h.seen, h.count, h.head, h.nodup, ?_, ?_, ?_, h.least⟩
  · intro f hf
    rcases hframe f hf with hf | ⟨q, -, rfl⟩
    · exact h.member f hf
    · exact hm
  · intro f hf r hr
    rcases hframe f hf with hf | ⟨q, hq, rfl⟩
    · exact h.meets f hf r hr
    · obtain rfl : q = r := Option.some.inj hr
      exact hrs q hq
  · intro f hf hnil
    rcases hframe f hf with hf | ⟨q, -, rfl⟩
    · exact h.nil f hf hnil
    · simp at hnil

theorem Sound.visit (h : s.Sound code g entry) (hf : f ∈ s.stack) (hsub : stack ⊆ s.stack)
    (hseen : s.isSeen f = false) (hr : f.block = some r) (hb : s.graph.blocks[r]? = some b)
    (hv : Sweep.visit code { s with stack } f r b = (s', o)) : s'.Sound code g entry := by
  have hnew : r ∉ s.visited := not_mem_visited hseen hr
  obtain ⟨hb₀, hlt⟩ := h.block hnew hb
  have hm : code.Meets g entry f.member r := h.meets f hf r hr
  have hpop : { s with stack }.Sound code g entry := h.pop hsub
  have hnotes : ∀ n ∈ (Note.ofCode code s.graph.calls f b.code).1,
      ∃ i ∈ b.code, Note.Of code g.calls i n := by
    rw [h.pruned.calls]
    exact fun n hn => Note.of_mem_ofCode hn
  rcases visit_cases hv with ⟨-, rfl, -⟩ | ⟨-, rfl, -⟩ | ⟨e, -, -, rfl⟩ | ⟨-, -, -, -, rs, hrs, rfl⟩
  · exact hpop.mark hnew hlt
  · exact hpop.mark hnew hlt
  · exact (hpop.prune hnew hb).noteAll hm hb₀ hnotes
  · refine ((hpop.prune hnew hb).noteAll hm hb₀ hnotes).schedule ?_ ?_
    · obtain ⟨reachable, heq, -, -, hmem⟩ := noteAll_eq (({ s with stack }.mark r).prune r b)
        (Note.ofCode code s.graph.calls f b.code).1
      rw [heq]
      exact (hmem _).mpr (.inl (h.member f hf))
    · intro q hq
      have hsucc : some q ∈ b.succs :=
        List.mem_of_mem_filter (hrs ▸ List.mem_map_of_mem hq)
      exact hm.succ ⟨b, hb₀, hsucc⟩

end

-- ---------------------------------------------------------------------------
-- Completeness
-- ---------------------------------------------------------------------------

/-- The block was processed, waits on the stack, or was a dead leaf from the start. -/
def Covers (g : Graph) (s : Sweep) (q : BlockRef) : Prop :=
  q ∈ s.visited ∨ (∃ f ∈ s.stack, f.block = some q) ∨ g.DeadLeaf q

/-- Nothing is wrong with a processed block, and all it refers to was found. -/
structure Settled (code : Registry) (g : Graph) (s : Sweep) (b : Block) : Prop where
  sound : ∀ kind m, ¬ b.Flaw code g.calls kind m
  refers : ∀ {i : Instruction} {m}, i ∈ b.code → i.Refers code g.calls m → m ∈ s.reachable
  succs : ∀ q, some q ∈ b.succs → s.Covers g q
  calls : ∀ {site c m root}, .call site ∈ b.code → g.calls[site]? = some c → c.Runs code m →
    code.body? m = some root → s.Covers g root

/-- What holds of a walk of `g` from `entry` as long as nothing failed. -/
structure Complete (code : Registry) (g : Graph) (entry : MemberId) (s : Sweep) : Prop where
  root : ∀ root, code.body? entry = some root → s.Covers g root
  block : ∀ r ∈ s.visited, ∃ b, g.blocks[r]? = some b ∧ s.Settled code g b
  body : ∀ m ∈ s.reachable, ∀ root, code.body? m = some root → s.Covers g root ∨
    ∃ b ∈ g.blocks, ∃ i ∈ b.code, i.field? = some m
  gone : ∀ r ∈ s.visited, ∀ q, g.DeadLeaf q → ¬ s.graph.Edge r q

section
variable {code : Registry} {g : Graph} {entry : MemberId} {s s' : Sweep} {f : Frame}
  {stack : List Frame} {r : BlockRef} {b : Block}

theorem mem_stack (hstack : s.stack.dropWhile s.isSeen = f :: stack) (hf : f' ∈ s.stack) :
    s.isSeen f' = true ∨ f' = f ∨ f' ∈ stack := by
  rw [← List.takeWhile_append_dropWhile (p := s.isSeen) (l := s.stack), hstack] at hf
  rcases List.mem_append.mp hf with hf | hf
  · exact .inl (List.mem_takeWhile_imp hf)
  · exact .inr (List.mem_cons.mp hf)

theorem Covers.step (h : s.Covers g q) (hstack : s.stack.dropWhile s.isSeen = f :: stack)
    (hr : f.block = some r) (hvisited : s'.visited = insert r s.visited)
    (hsub : stack ⊆ s'.stack) : s'.Covers g q := by
  rcases h with hq | ⟨f', hf', hq⟩ | hdead
  · exact .inl (hvisited ▸ Set.mem_insert_of_mem r hq)
  · rcases mem_stack hstack hf' with hseen | rfl | hf'
    · have : q ∈ s.visited := by simpa [isSeen, hq, visited] using hseen
      exact .inl (hvisited ▸ Set.mem_insert_of_mem r this)
    · obtain rfl : r = q := by simpa [hr] using hq
      exact .inl (hvisited ▸ Set.mem_insert r s.visited)
    · exact .inr (.inl ⟨f', hsub hf', hq⟩)
  · exact .inr (.inr hdead)

theorem Settled.mono (h : s.Settled code g b) (hreach : s.reachable ⊆ s'.reachable)
    (hcover : ∀ q, s.Covers g q → s'.Covers g q) : s'.Settled code g b where
  sound := h.sound
  refers hi hm := hreach (h.refers hi hm)
  succs q hq := hcover q (h.succs q hq)
  calls hi hc hrun hbody := hcover _ (h.calls hi hc hrun hbody)

/-- What processing a block to its end comes to, apart from the order of what it adds. -/
structure Processed (code : Registry) (s : Sweep) (f : Frame) (stack : List Frame) (r : BlockRef)
    (b : Block) (s' : Sweep) : Prop where
  nonempty : b.code ≠ []
  present : none ∉ b.succs
  notes : (Note.ofCode code s.graph.calls f b.code).2 = none
  visited : r < s.seen.size → s'.visited = insert r s.visited
  graph : s'.graph = (s.prune r b).graph
  stack : stack ⊆ s'.stack
  reachable : ∀ m, m ∈ s'.reachable ↔ m ∈ s.reachable ∨
    ∃ n ∈ (Note.ofCode code s.graph.calls f b.code).1, n.member = m
  noted : ∀ {n q}, n ∈ (Note.ofCode code s.graph.calls f b.code).1 → n.body = some (some q) →
    ∃ f' ∈ s'.stack, f'.block = some q
  live : ∀ {q}, some q ∈ b.succs → s.graph.isLive (some q) = true →
    ∃ f' ∈ s'.stack, f'.block = some q

theorem visit_processed (hv : Sweep.visit code { s with stack } f r b = (s', none)) :
    Processed code s f stack r b s' := by
  rcases visit_cases hv with ⟨-, -, ho⟩ | ⟨-, -, ho⟩ | ⟨_, -, ho, -⟩ |
    ⟨hcode, hnil, hnotes, -, rs, hrs, hs'⟩
  · simp at ho
  · simp at ho
  · simp at ho
  obtain ⟨reachable, heq, -, -, hmem⟩ := noteAll_eq (({ s with stack }.mark r).prune r b)
    (Note.ofCode code s.graph.calls f b.code).1
  rw [heq] at hs'
  subst hs'
  refine ⟨hcode, hnil, hnotes, fun hlt => visited_mark hlt, rfl, ?_, hmem, ?_, ?_⟩
  · exact fun f hf => List.mem_append_right _ (List.mem_append_right _ hf)
  · intro n q hn hbody
    refine ⟨⟨some q, n.member⟩, ?_, rfl⟩
    refine List.mem_append_right _ (List.mem_append_left _ (List.mem_reverse.mpr ?_))
    exact List.mem_filterMap.mpr ⟨n, hn, by simp [Note.frame?, hbody]⟩
  · intro q hq hlive
    have hq' : some q ∈ rs.map some := hrs ▸ List.mem_filter.mpr ⟨hq, hlive⟩
    have hq' : q ∈ rs := by simpa using hq'
    exact ⟨⟨some q, f.member⟩, List.mem_append_left _ (List.mem_map_of_mem hq'), rfl⟩

theorem Processed.settled (h : Processed code s f stack r b s') (hs : s.Sound code g entry)
    (hcover : ∀ q, s.Covers g q → s'.Covers g q) : s'.Settled code g b := by
  have hnotes := h.notes
  have hreach := h.reachable
  have hnoted := @h.noted
  rw [hs.pruned.calls] at hnotes hreach hnoted
  refine ⟨fun kind m => Note.no_flaw_of_ofCode_none hnotes h.nonempty h.present, ?_, ?_, ?_⟩
  · intro i m hi hm
    obtain ⟨hnone, hall⟩ := Note.ofCode_none hnotes hi
    obtain ⟨n, hn, rfl⟩ := Note.exists_note_of_refers hnone hm
    exact (hreach _).mpr (.inr ⟨n, hall n hn, rfl⟩)
  · -- a successor was put on the stack unless it is a dead leaf by now
    intro q hq
    by_cases hlive : s.graph.isLive (some q) = true
    · exact .inr (.inl (h.live hq hlive))
    · have hdead := Graph.isLive_some.mp (by simpa using hlive)
      by_cases hqv : q ∈ s.visited
      · exact hcover q (.inl hqv)
      · exact .inr (.inr (hs.pruned.deadLeaf_of_untouched hdead hqv))
  · intro site c m root hi hc hrun hbody
    obtain ⟨hnone, hall⟩ := Note.ofCode_none hnotes hi
    obtain ⟨root', hfind, hn⟩ := Note.mem_ofInstruction_of_runs hnone hc hrun
    obtain rfl : root' = some root := by
      simpa [Registry.body?_eq_some.mp hbody] using hfind.symm
    exact .inr (.inl (hnoted (hall _ hn) rfl))

theorem Sound.not_edge_prune (hs : s.Sound code g entry) (hb : s.graph.blocks[r]? = some b)
    (ht : g.DeadLeaf t) : ¬ (s.prune r b).graph.Edge r t := by
  rintro ⟨b', hb', hmem⟩
  have hin : r < s.graph.blocks.size := (Array.getElem?_eq_some_iff.mp hb).1
  rw [Sweep.prune, Graph.getElem?_setBlock] at hb'
  simp only [hin, ↓reduceIte, Option.some.injEq] at hb'
  subst hb'
  have hlive := (List.mem_filter.mp hmem).2
  simp [Graph.isLive_some.mpr (hs.pruned.deadLeaf ht)] at hlive

theorem Complete.visit (h : s.Complete code g entry) (hs : s.Sound code g entry)
    (hstack : s.stack.dropWhile s.isSeen = f :: stack) (hseen : s.isSeen f = false)
    (hr : f.block = some r) (hb : s.graph.blocks[r]? = some b)
    (hv : Sweep.visit code { s with stack } f r b = (s', none)) : s'.Complete code g entry := by
  obtain ⟨hb₀, hlt⟩ := hs.block (not_mem_visited hseen hr) hb
  have hp := visit_processed hv
  have hvisited := hp.visited hlt
  have hcover : ∀ q, s.Covers g q → s'.Covers g q := fun q hq =>
    hq.step hstack hr hvisited hp.stack
  have hgrow : s.reachable ⊆ s'.reachable := fun m hm => (hp.reachable m).mpr (.inl hm)
  refine ⟨fun root hroot => hcover root (h.root root hroot), ?_, ?_, ?_⟩
  -- each of the three is old, or is about the block just processed
  · intro q hq
    rcases Set.mem_insert_iff.mp (hvisited ▸ hq) with rfl | hq
    · exact ⟨b, hb₀, hp.settled hs hcover⟩
    · obtain ⟨b', hb', hsettled⟩ := h.block q hq
      exact ⟨b', hb', hsettled.mono hgrow hcover⟩
  · intro m hm root hroot
    rcases (hp.reachable m).mp hm with hm | ⟨⟨m', body⟩, hn, rfl⟩
    · exact (h.body m hm root hroot).imp (hcover root) id
    · obtain ⟨i, hi, hof⟩ := Note.of_mem_ofCode hn
      cases body with
      | none =>
        refine .inr ⟨b, Array.mem_of_getElem? hb₀, i, hi, ?_⟩
        rcases hof with rfl | rfl <;> rfl
      | some root' =>
        obtain ⟨site, c, -, -, -, hfind⟩ := hof
        obtain rfl : root' = some root := by
          simpa [Registry.body?_eq_some.mp hroot] using hfind.symm
        exact .inl (.inr (.inl (hp.noted hn rfl)))
  · intro q hq t ht hedge
    rw [hp.graph] at hedge
    by_cases hrq : r = q
    · subst hrq
      exact hs.not_edge_prune hb ht hedge
    · have hq : q ∈ s.visited := by
        rcases Set.mem_insert_iff.mp (hvisited ▸ hq) with rfl | hq
        · exact absurd rfl hrq
        · exact hq
      obtain ⟨b', hb', hmem⟩ := hedge
      rw [Sweep.prune, Graph.getElem?_setBlock] at hb'
      exact h.gone q hq t ht ⟨b', by simpa [hrq] using hb', hmem⟩

end

end Sweep

end Linkage
