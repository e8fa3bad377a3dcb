import Linkage.Proofs.Reach
import Mathlib.Data.Set.Insert

/-!
# Pruning

A graph that was pruned has the blocks it had, some of them with fewer successors, and whatever was
taken away is a dead leaf by now. This is enough for the graph to mean what it meant: along the
successors of any block, the same instructions can be met in the same order, placeholders aside.
-/

namespace Linkage.Graph

section
variable {g g' : Graph} {V : Set BlockRef} {b : Block} {r q : BlockRef}

theorem getElem?_setBlock (g : Graph) (r q : BlockRef) (b : Block) :
    (g.setBlock r b).blocks[q]? =
      if r = q then (if r < g.blocks.size then some b else none) else g.blocks[q]? := by
  simp [setBlock, Array.getElem?_setIfInBounds]

/-- `g'` is what pruning made of `g`, with changes at blocks of `V` only. -/
structure PrunedTo (g g' : Graph) (V : Set BlockRef) : Prop where
  calls : g'.calls = g.calls
  issued : g'.issued = g.issued
  size : g'.blocks.size = g.blocks.size
  block : ∀ {r : BlockRef} {b : Block}, g.blocks[r]? = some b → ∃ succs,
    g'.blocks[r]? = some { b with succs } ∧ (r ∉ V → succs = b.succs) ∧ succs.Sublist b.succs ∧
      ∀ q, succs.count q < b.succs.count q → ∃ t, q = some t ∧ g'.DeadLeaf t

theorem PrunedTo.refl : g.PrunedTo g V where
  calls := rfl
  issued := rfl
  size := rfl
  block {_ b} hb :=
    ⟨b.succs, hb, fun _ => rfl, List.Sublist.refl _, fun _ h => absurd h (lt_irrefl _)⟩

theorem PrunedTo.mono (h : g.PrunedTo g' V) (hV : V ⊆ W) : g.PrunedTo g' W where
  calls := h.calls
  issued := h.issued
  size := h.size
  block hb := by
    obtain ⟨succs, hb', hsame, hrest⟩ := h.block hb
    exact ⟨succs, hb', fun hr => hsame fun hr' => hr (hV hr'), hrest⟩

theorem PrunedTo.origin (h : g.PrunedTo g' V) (hb : g'.blocks[r]? = some b) :
    ∃ b₀, g.blocks[r]? = some b₀ ∧ b.code = b₀.code ∧ b.succs.Sublist b₀.succs ∧
      (r ∉ V → b = b₀) := by
  have hr : r < g.blocks.size := h.size ▸ (Array.getElem?_eq_some_iff.mp hb).1
  obtain ⟨b₀, hb₀⟩ : ∃ b₀, g.blocks[r]? = some b₀ := ⟨_, Array.getElem?_eq_getElem hr⟩
  obtain ⟨succs, hsuccs, hkeep, hsub, -⟩ := h.block hb₀
  obtain rfl : { b₀ with succs } = b := by simpa [hb] using hsuccs.symm
  refine ⟨b₀, hb₀, rfl, hsub, fun hV => ?_⟩
  simp [hkeep hV]

theorem PrunedTo.deadLeaf (h : g.PrunedTo g' V) (hr : g.DeadLeaf r) : g'.DeadLeaf r := by
  obtain ⟨b, hb, hcode, hsuccs⟩ := hr
  obtain ⟨succs, hb', -, hsub, -⟩ := h.block hb
  exact ⟨_, hb', hcode, List.eq_nil_of_sublist_nil (hsuccs ▸ hsub)⟩

theorem PrunedTo.deadLeaf_of_untouched (h : g.PrunedTo g' V) (hr : g'.DeadLeaf r) (hV : r ∉ V) :
    g.DeadLeaf r := by
  obtain ⟨b, hb, hcode, hsuccs⟩ := hr
  obtain ⟨b₀, hb₀, -, -, hsame⟩ := h.origin hb
  obtain rfl := hsame hV
  exact ⟨b, hb₀, hcode, hsuccs⟩

theorem PrunedTo.removed (h : g.PrunedTo g' V) (he : g.Edge r q) (hn : ¬ g'.Edge r q) :
    g'.DeadLeaf q := by
  obtain ⟨b, hb, hq⟩ := he
  obtain ⟨succs, hb', -, -, hgone⟩ := h.block hb
  have hnot : some q ∉ succs := fun hmem => hn ⟨_, hb', hmem⟩
  obtain ⟨t, ht, hdead⟩ := hgone (some q) (by
    rw [List.count_eq_zero_of_not_mem hnot]
    exact List.count_pos_iff.mpr hq)
  cases ht
  exact hdead

theorem DeadLeaf.setBlock_filter {t : BlockRef} (ht : g.DeadLeaf t) (hb : g.blocks[r]? = some b)
    (keep : Option BlockRef → Bool) :
    (g.setBlock r { b with succs := b.succs.filter keep }).DeadLeaf t := by
  obtain ⟨c, hc, hcode, hsuccs⟩ := ht
  by_cases hrt : r = t
  · subst hrt
    obtain rfl : c = b := by simpa [hb] using hc.symm
    have hr : r < g.blocks.size := (Array.getElem?_eq_some_iff.mp hb).1
    refine ⟨{ c with succs := c.succs.filter keep }, ?_, hcode, by simp [hsuccs]⟩
    rw [getElem?_setBlock]
    simp [hr]
  · exact ⟨c, by rw [getElem?_setBlock]; simpa [hrt] using hc, hcode, hsuccs⟩

/-- One more block is pruned: of its successors, those left out are dead leaves. -/
theorem PrunedTo.step (h : g.PrunedTo g' V) (hb : g'.blocks[r]? = some b) (hV : r ∉ V)
    (keep : Option BlockRef → Bool)
    (hkeep : ∀ q ∈ b.succs, keep q = false → ∃ t, q = some t ∧ g'.DeadLeaf t) :
    g.PrunedTo (g'.setBlock r { b with succs := b.succs.filter keep }) (insert r V) where
  calls := h.calls
  issued := h.issued
  size := by simpa [setBlock] using h.size
  block {q b₁} hb₁ := by
    have hr : r < g'.blocks.size := (Array.getElem?_eq_some_iff.mp hb).1
    by_cases hrq : r = q
    · subst hrq
      -- the block was not touched before, so it still has the successors it had at first
      obtain ⟨b₀, hb₀, -, -, hsame⟩ := h.origin hb
      obtain rfl := hsame hV
      obtain rfl : b = b₁ := by simpa [hb₀] using hb₁
      refine ⟨b.succs.filter keep, by rw [getElem?_setBlock]; simp [hr], ?_, List.filter_sublist,
        ?_⟩
      · intro hnot
        exact absurd (Set.mem_insert r V) hnot
      · intro q hq
        have hmem : q ∈ b.succs := List.count_pos_iff.mp (by omega)
        have hdrop : keep q = false := by
          by_contra hk
          rw [List.count_filter (by simpa using hk)] at hq
          exact lt_irrefl _ hq
        obtain ⟨t, rfl, hdead⟩ := hkeep q hmem hdrop
        exact ⟨t, rfl, hdead.setBlock_filter hb keep⟩
    · obtain ⟨succs, hb', hsame, hsub, hgone⟩ := h.block hb₁
      refine ⟨succs, by rw [getElem?_setBlock]; simpa [hrq] using hb', ?_, hsub, ?_⟩
      · intro hnot
        exact hsame fun hq => hnot (Set.mem_insert_of_mem r hq)
      · intro q hq
        obtain ⟨t, rfl, hdead⟩ := hgone q hq
        exact ⟨t, rfl, hdead.setBlock_filter hb keep⟩

end

-- ---------------------------------------------------------------------------
-- Meaning
-- ---------------------------------------------------------------------------

/-- The code met along a finite path of successors that starts at a block. -/
inductive Spells (g : Graph) : BlockRef → List Instruction → Prop
  | stop {r b} : g.blocks[r]? = some b → Spells g r b.code
  | step {r b q code} : g.blocks[r]? = some b → some q ∈ b.succs → Spells g q code →
      Spells g r (b.code ++ code)

/-- What a block may do: the instructions along its paths, without placeholders. -/
def effects (g : Graph) (r : BlockRef) : Set (List Instruction) :=
  { t | ∃ code, g.Spells r code ∧ t = code.filter (· ≠ .nop) }

section
variable {g g' : Graph} {V : Set BlockRef}

theorem DeadLeaf.spells (h : g.DeadLeaf r) (hs : g.Spells r code) : code = [.nop] := by
  obtain ⟨b, hb, hcode, hsuccs⟩ := h
  cases hs with
  | stop hb' => simp_all
  | step hb' hq _ => simp_all

theorem PrunedTo.spells (h : g.PrunedTo g' V) (hs : g'.Spells r code) : g.Spells r code := by
  induction hs with
  | stop hb =>
    obtain ⟨b₀, hb₀, hcode, -, -⟩ := h.origin hb
    rw [hcode]
    exact Spells.stop hb₀
  | step hb hq _ ih =>
    obtain ⟨b₀, hb₀, hcode, hsub, -⟩ := h.origin hb
    rw [hcode]
    exact Spells.step hb₀ (hsub.subset hq) ih

/-- A path that leaves the pruned graph does so into a dead leaf, where it has nothing to add. -/
theorem PrunedTo.exists_spells (h : g.PrunedTo g' V) (hs : g.Spells r code) :
    ∃ code', g'.Spells r code' ∧ code.filter (· ≠ .nop) = code'.filter (· ≠ .nop) := by
  induction hs with
  | stop hb =>
    obtain ⟨succs, hb', -⟩ := h.block hb
    exact ⟨_, Spells.stop hb', rfl⟩
  | @step r b q code hb hq _ ih =>
    obtain ⟨succs, hb', -⟩ := h.block hb
    obtain ⟨code', hcode', heq⟩ := ih
    by_cases hkept : some q ∈ succs
    · refine ⟨_, Spells.step hb' hkept hcode', ?_⟩
      rw [List.filter_append, List.filter_append, heq]
    · have hdead : g'.DeadLeaf q := h.removed ⟨b, hb, hq⟩ (by
        rintro ⟨b₁, hb₁, hmem⟩
        obtain rfl : { b with succs } = b₁ := by simpa [hb'] using hb₁
        exact hkept hmem)
      obtain rfl := hdead.spells hcode'
      refine ⟨_, Spells.stop hb', ?_⟩
      rw [List.filter_append, heq]
      simp

theorem PrunedTo.effects_eq (h : g.PrunedTo g' V) (r : BlockRef) : g'.effects r = g.effects r := by
  ext t
  constructor
  · rintro ⟨code, hs, rfl⟩
    exact ⟨code, h.spells hs, rfl⟩
  · rintro ⟨code, hs, rfl⟩
    obtain ⟨code', hs', heq⟩ := h.exists_spells hs
    exact ⟨code', hs', heq⟩

end

end Linkage.Graph
