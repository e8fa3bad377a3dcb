import Linkage.Proofs.Walk

/-!
# Walks in preorder

A walk keeps a stack of blocks to come to, on which a block may wait any number of times. Here the
order in which it lists blocks is said without a stack: a block comes before what its successors
lead to, and what one successor leads to before what the next one does. What waits on the stack is
what this recursion has still to come back to, so the two agree on every graph, and both end
(`Graph.walk_preorder`).
-/

namespace Linkage.Graph

/-- Going into the blocks of `todo` from the first to the last lists `listed`. A block that was seen
is passed over. Any other one is listed and seen from now on, and its successors are gone into
before the walk goes on. The blocks that were seen come with the latest first. -/
inductive Preorders (g : Graph) : (seen todo listed : List BlockRef) → Prop
  | nil {seen} : Preorders g seen [] []
  | seen {seen r rest listed} : r ∈ seen → Preorders g seen rest listed →
      Preorders g seen (r :: rest) listed
  | visit {seen r rest b below listed} : r ∉ seen → g.blocks[r]? = some b →
      Preorders g (r :: seen) (b.succs.filterMap id) below →
      Preorders g (below.reverse ++ r :: seen) rest listed →
      Preorders g seen (r :: rest) (r :: below ++ listed)

/-- Taking the blocks off a stack one by one comes to an end and has listed `listed` then. The
successors of a block that was not found before take its place on the stack. The blocks found so
far come with the latest first. -/
inductive Pops (g : Graph) : (found stack listed : List BlockRef) → Prop
  | done {found} : Pops g found [] found.reverse
  | skip {found r rest listed} : r ∈ found → Pops g found rest listed →
      Pops g found (r :: rest) listed
  | list {found r rest b listed} : r ∉ found → g.blocks[r]? = some b →
      Pops g (r :: found) (b.succs.filterMap id ++ rest) listed → Pops g found (r :: rest) listed

section
variable {g : Graph} {root r : BlockRef} {steps n : Nat} {marks : Array Bool}
  {seen seen' todo found stack rest listed listed' : List BlockRef}

-- ---------------------------------------------------------------------------
-- The recursion
-- ---------------------------------------------------------------------------

theorem Preorders.unique (h : g.Preorders seen todo listed) (h' : g.Preorders seen todo listed') :
    listed = listed' := by
  induction h generalizing listed' with
  | nil =>
    cases h' with
    | nil => rfl
  | seen hr _ ih =>
    cases h' with
    | seen _ h' => exact ih h'
    | visit hr' => exact absurd hr hr'
  | visit hr hb _ _ ihbelow ihrest =>
    cases h' with
    | seen hr' => exact absurd hr' hr
    | visit _ hb' hbelow' hrest' =>
      obtain rfl := Option.some.inj (hb.symm.trans hb')
      obtain rfl := ihbelow hbelow'
      rw [ihrest hrest']

theorem reverse_visit (r : BlockRef) (below listed seen : List BlockRef) :
    (r :: below ++ listed).reverse ++ seen =
      listed.reverse ++ (below.reverse ++ r :: seen) := by
  simp

theorem Preorders.fresh (h : g.Preorders seen todo listed) (hn : seen.Nodup)
    (hlt : ∀ r ∈ seen, r < g.blocks.size) :
    (listed.reverse ++ seen).Nodup ∧ ∀ r ∈ listed.reverse ++ seen, r < g.blocks.size := by
  induction h with
  | nil => exact ⟨hn, hlt⟩
  | seen _ _ ih => exact ih hn hlt
  | @visit seen r rest b below listed hr hb _ _ ihbelow ihrest =>
    have hr' : r < g.blocks.size := (Array.getElem?_eq_some_iff.mp hb).1
    obtain ⟨hn', hlt'⟩ := ihbelow (List.nodup_cons.mpr ⟨hr, hn⟩)
      (List.forall_mem_cons.mpr ⟨hr', hlt⟩)
    have hrest := ihrest hn' hlt'
    rwa [← reverse_visit] at hrest

/-- The recursion ends: with every block that it goes into one more was seen. -/
theorem exists_preorders (hin : ∀ r, g.Reaches root r → r < g.blocks.size) (hn : seen.Nodup)
    (hlt : ∀ r ∈ seen, r < g.blocks.size) (hsize : g.blocks.size ≤ n + seen.length)
    (htodo : ∀ r ∈ todo, g.Reaches root r) : ∃ listed, g.Preorders seen todo listed := by
  induction n generalizing seen todo with
  | zero =>
    refine ⟨[], ?_⟩
    induction todo with
    | nil => exact .nil
    | cons r rest ih =>
      obtain ⟨hr, hrest⟩ := List.forall_mem_cons.mp htodo
      exact .seen (mem_of_length_le hn hlt (by simpa using hsize) (hin r hr)) (ih hrest)
  | succ n ih =>
    induction todo with
    | nil => exact ⟨[], .nil⟩
    | cons r rest ihrest =>
      obtain ⟨hreach, hrest⟩ := List.forall_mem_cons.mp htodo
      by_cases hr : r ∈ seen
      · obtain ⟨listed, h⟩ := ihrest hrest
        exact ⟨listed, .seen hr h⟩
      obtain ⟨b, hb⟩ : ∃ b, g.blocks[r]? = some b := ⟨_, Array.getElem?_eq_getElem (hin r hreach)⟩
      have hsuccs : ∀ q ∈ b.succs.filterMap id, g.Reaches root q := fun q hq =>
        hreach.tail ⟨b, hb, by simpa using hq⟩
      have hn' : (r :: seen).Nodup := List.nodup_cons.mpr ⟨hr, hn⟩
      have hlt' : ∀ q ∈ r :: seen, q < g.blocks.size :=
        List.forall_mem_cons.mpr ⟨hin r hreach, hlt⟩
      obtain ⟨below, hbelow⟩ := ih hn' hlt' (by simp only [List.length_cons]; omega) hsuccs
      obtain ⟨hn'', hlt''⟩ := hbelow.fresh hn' hlt'
      obtain ⟨listed, hlisted⟩ := ih hn'' hlt''
        (by simp only [List.length_append, List.length_cons]; omega) hrest
      exact ⟨_, .visit hr hb hbelow hlisted⟩

-- ---------------------------------------------------------------------------
-- The stack
-- ---------------------------------------------------------------------------

theorem Pops.unique (h : g.Pops found stack listed) (h' : g.Pops found stack listed') :
    listed = listed' := by
  induction h with
  | done =>
    cases h' with
    | done => rfl
  | skip hr _ ih =>
    cases h' with
    | skip _ h' => exact ih h'
    | list hr' => exact absurd hr hr'
  | list hr hb _ ih =>
    cases h' with
    | skip hr' => exact absurd hr' hr
    | list _ hb' h' =>
      obtain rfl := Option.some.inj (hb.symm.trans hb')
      exact ih h'

/-- The stack comes from what the recursion goes into to what waits under it, with everything found
that the recursion lists. -/
theorem Preorders.pops (h : g.Preorders seen todo listed)
    (hrest : g.Pops (listed.reverse ++ seen) rest listed') :
    g.Pops seen (todo ++ rest) listed' := by
  induction h generalizing rest with
  | nil => exact hrest
  | seen hr _ ih => exact .skip hr (ih hrest)
  | visit hr hb _ _ ihbelow ihrest =>
    rw [reverse_visit] at hrest
    exact .list hr hb (ihbelow (ihrest hrest))

theorem walkFrom_skip (hr : marks.getD r false = true) :
    g.walkFrom steps marks found (r :: rest) = g.walkFrom steps marks found rest := by
  have hdrop : (r :: rest).dropWhile (marks.getD · false) = rest.dropWhile (marks.getD · false) :=
    List.dropWhile_cons_of_pos hr
  cases steps <;> rw [walkFrom, walkFrom, hdrop]

theorem Walking.skip (hw : g.Walking root steps marks found (r :: rest)) (hr : r ∈ found) :
    g.Walking root steps marks found rest := by
  refine { hw with
    pending := fun q hq => hw.pending q (List.mem_cons_of_mem r hq)
    closed := fun p hp q hpq => ?_
    first := .inl (hw.first.resolve_right fun hstart => ?_) }
  · rcases hw.closed p hp q hpq with hq | hq
    · exact .inl hq
    · rcases List.mem_cons.mp hq with rfl | hq
      · exact .inl hr
      · exact .inr hq
  · rw [hstart.1] at hr
    cases hr

/-- A walk lists what taking blocks off its stack one by one lists: its steps are enough, since each
of them finds a block. -/
theorem Walking.walkFrom_eq (h : g.Pops found stack listed)
    (hw : g.Walking root steps marks found stack) :
    g.walkFrom steps marks found stack = .ok listed := by
  induction h generalizing steps marks with
  | done => exact walkFrom_nil rfl
  | @skip found r rest listed hr _ ih =>
    rw [walkFrom_skip ((hw.marked r).mpr hr)]
    exact ih (hw.skip hr)
  | @list found r rest b listed hr hb _ ih =>
    have hdrop : (r :: rest).dropWhile (marks.getD · false) = r :: rest :=
      List.dropWhile_cons_of_neg (mt (hw.marked r).mp hr)
    have hlt : found.length < g.blocks.size := Nat.lt_of_not_le fun hle =>
      hr (mem_of_length_le hw.nodup hw.there hle (Array.getElem?_eq_some_iff.mp hb).1)
    obtain ⟨steps, rfl⟩ : ∃ k, steps = k + 1 := ⟨steps - 1, by have := hw.budget; omega⟩
    rw [walkFrom_cons hdrop hb]
    exact ih (hw.step hdrop hb)

/-- A walk ends and lists the blocks in reach of its root, each once, in the order of the recursive
preorder. So does the loop that takes one block after another off the stack. -/
theorem walk_preorder (g : Graph) (root : BlockRef)
    (hin : ∀ r, g.Reaches root r → r < g.blocks.size) :
    ∃ listed, g.walk (some root) = .ok listed ∧ listed.Nodup ∧
      (∀ r, r ∈ listed ↔ g.Reaches root r) ∧
      (∀ order, g.Preorders [] [root] order ↔ order = listed) ∧
      ∀ order, g.Pops [] [root] order ↔ order = listed := by
  obtain ⟨listed, hwalk, hnodup, -, hmem⟩ := lists_walk hin
  obtain ⟨order, horder⟩ : ∃ order, g.Preorders [] [root] order :=
    exists_preorders (n := g.blocks.size) hin List.nodup_nil (by simp) (by simp)
      (List.forall_mem_singleton.mpr .refl)
  have hpops : g.Pops [] [root] order := by
    have hdone : g.Pops order.reverse [] order.reverse.reverse := .done
    exact horder.pops (by simpa using hdone)
  obtain rfl : listed = order :=
    Except.ok.inj (hwalk.symm.trans ((Walking.start g root).walkFrom_eq hpops))
  refine ⟨listed, hwalk, hnodup, hmem, fun other => ⟨fun h => h.unique horder, ?_⟩,
    fun other => ⟨fun h => h.unique hpops, ?_⟩⟩
  · rintro rfl
    exact horder
  · rintro rfl
    exact hpops

end

/-- A loop with a shared block: the first block leads to the last one directly, with a gap before
it and twice, and the last one leads back. -/
def knot : Graph where
  blocks := #[
    { id := 0, code := [.nop], succs := [none, some 2, some 1, some 2], mergeable := true },
    { id := 1, code := [.nop], succs := [some 1, some 3], mergeable := true },
    { id := 2, code := [.nop], succs := [some 3], mergeable := true },
    { id := 3, code := [.nop], succs := [some 0, none, some 1], mergeable := true }]

theorem knot_inRange : knot.InRange [] := by decide

theorem walk_preorder_knot :
    (∀ r, knot.Reaches 0 r → r < knot.blocks.size) ∧
      knot.walk (some 0) = .ok [0, 2, 3, 1] ∧ knot.Preorders [] [0] [0, 2, 3, 1] ∧
      knot.Pops [] [0] [0, 2, 3, 1] := by
  have hin : ∀ r, knot.Reaches 0 r → r < knot.blocks.size := by
    intro r hr
    cases hr with
    | refl => decide
    | tail _ hedge =>
      obtain ⟨b, hb, hq⟩ := hedge
      exact knot_inRange.succs b (Array.mem_of_getElem? hb) _ hq _ rfl
  have hwalk : knot.walk (some 0) = .ok [0, 2, 3, 1] := by decide
  obtain ⟨listed, hlisted, -, -, hpreorder, hpops⟩ := walk_preorder knot 0 hin
  obtain rfl : [0, 2, 3, 1] = listed := Except.ok.inj (hwalk.symm.trans hlisted)
  exact ⟨hin, hwalk, (hpreorder _).mpr rfl, (hpops _).mpr rfl⟩

end Linkage.Graph
