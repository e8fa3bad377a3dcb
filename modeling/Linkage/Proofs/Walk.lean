import Linkage.Proofs.Reach
import Mathlib.Data.List.Perm.Subperm
import Mathlib.Data.List.TakeWhile

/-!
# Walks

A walk ends, and lists the blocks in reach of its root, each once and the root first, if they are
all there. The invariant says what is known of the blocks found so far and of those on the stack.
-/

namespace Linkage.Graph

section
variable {g : Graph} {root r : BlockRef} {steps : Nat} {seen : Array Bool}
  {found stack rest : List BlockRef}

/-- What holds while a walk from `root` goes on. -/
structure Walking (g : Graph) (root : BlockRef) (steps : Nat) (seen : Array Bool)
    (found stack : List BlockRef) : Prop where
  size : seen.size = g.blocks.size
  marked : ∀ r, seen.getD r false = true ↔ r ∈ found
  nodup : found.Nodup
  there : ∀ r ∈ found, r < g.blocks.size
  reached : ∀ r ∈ found, g.Reaches root r
  pending : ∀ r ∈ stack, g.Reaches root r
  closed : ∀ r ∈ found, ∀ q, g.Edge r q → q ∈ found ∨ q ∈ stack
  first : found.getLast? = some root ∨ found = [] ∧ stack = [root]
  budget : g.blocks.size ≤ steps + found.length

theorem Walking.start (g : Graph) (root : BlockRef) :
    g.Walking root g.blocks.size g.unseen [] [root] where
  size := by simp [unseen]
  marked r := by
    simp only [unseen, Array.getD_eq_getD_getElem?, Array.getElem?_replicate]
    split <;> simp
  nodup := .nil
  there := by simp
  reached := by simp
  pending := by
    intro r hr
    obtain rfl := List.mem_singleton.mp hr
    exact .refl
  closed := by simp
  first := .inr ⟨rfl, rfl⟩
  budget := by omega

theorem Walking.split (hw : g.Walking root steps seen found stack)
    (hdrop : stack.dropWhile (seen.getD · false) = r :: rest) :
    r ∉ found ∧ r ∈ stack ∧ (∀ q ∈ rest, q ∈ stack) ∧
      ∀ q ∈ stack, q ∈ found ∨ q = r ∨ q ∈ rest := by
  have hhead : seen.getD r false = false := by
    have hnot := List.head?_dropWhile_not (seen.getD · false) stack
    rwa [hdrop] at hnot
  have hsub : ∀ q ∈ r :: rest, q ∈ stack := fun q hq =>
    (List.dropWhile_sublist (seen.getD · false)).subset (hdrop ▸ hq)
  refine ⟨?_, hsub r (by simp), fun q hq => hsub q (by simp [hq]), ?_⟩
  · rw [← hw.marked, hhead]
    decide
  · intro q hq
    rw [← List.takeWhile_append_dropWhile (p := (seen.getD · false)) (l := stack), hdrop] at hq
    rcases List.mem_append.mp hq with hq | hq
    · exact .inl ((hw.marked q).mp (List.mem_takeWhile_imp (p := (seen.getD · false)) hq))
    · exact .inr (List.mem_cons.mp hq)

theorem Walking.step {b : Block} (hw : g.Walking root (steps + 1) seen found stack)
    (hdrop : stack.dropWhile (seen.getD · false) = r :: rest) (hb : g.blocks[r]? = some b) :
    g.Walking root steps (seen.setIfInBounds r true) (r :: found)
      (b.succs.filterMap id ++ rest) := by
  obtain ⟨hfresh, hr, hrest, hsplit⟩ := hw.split hdrop
  have hlt : r < g.blocks.size := (Array.getElem?_eq_some_iff.mp hb).1
  have hreach := hw.pending r hr
  have hedge : ∀ q, g.Edge r q ↔ q ∈ b.succs.filterMap id := by simp [Edge, hb]
  refine ⟨by simp [hw.size], fun q => ?_, List.nodup_cons.mpr ⟨hfresh, hw.nodup⟩,
    List.forall_mem_cons.mpr ⟨hlt, hw.there⟩, ?_, ?_, ?_, .inl ?_, ?_⟩
  · rw [List.mem_cons, ← hw.marked q, Array.getD_eq_getD_getElem?, Array.getElem?_setIfInBounds]
    by_cases hq : r = q
    · subst hq
      simp [hw.size, hlt]
    · simp [hq, Ne.symm hq]
  · rintro q (_ | ⟨_, hq⟩)
    · exact hreach
    · exact hw.reached q hq
  · intro q hq
    rcases List.mem_append.mp hq with hq | hq
    · exact hreach.tail ((hedge q).mpr hq)
    · exact hw.pending q (hrest q hq)
  · intro p hp q hpq
    rw [List.mem_cons, List.mem_append]
    rcases List.mem_cons.mp hp with rfl | hp
    · exact .inr (.inl ((hedge q).mp hpq))
    · rcases hw.closed p hp q hpq with hq | hq
      · exact .inl (.inr hq)
      · rcases hsplit q hq with hq | rfl | hq
        · exact .inl (.inr hq)
        · exact .inl (.inl rfl)
        · exact .inr (.inr hq)
  · rcases hw.first with hlast | ⟨rfl, rfl⟩
    · rw [List.getLast?_cons, hlast]
      rfl
    · obtain rfl : r = root := by simpa using hr
      rfl
  · have := hw.budget
    simp only [List.length_cons]
    omega

theorem walkFrom_nil (hdrop : stack.dropWhile (seen.getD · false) = []) :
    g.walkFrom steps seen found stack = .ok found.reverse := by
  cases steps <;> rw [walkFrom, hdrop]

theorem walkFrom_cons {b : Block} (hdrop : stack.dropWhile (seen.getD · false) = r :: rest)
    (hb : g.blocks[r]? = some b) :
    g.walkFrom (steps + 1) seen found stack =
      g.walkFrom steps (seen.setIfInBounds r true) (r :: found)
        (b.succs.filterMap id ++ rest) := by
  rw [walkFrom, hdrop]
  simp only [hb]

/-- A walk from `root` gives the blocks in reach, each once and the root first. -/
def Lists (g : Graph) (root : BlockRef) (result : Except Fault (List BlockRef)) : Prop :=
  ∃ listed, result = .ok listed ∧ listed.Nodup ∧ listed.head? = some root ∧
    ∀ r, r ∈ listed ↔ g.Reaches root r

theorem Walking.finish (hw : g.Walking root steps seen found stack)
    (hdrop : stack.dropWhile (seen.getD · false) = []) :
    g.Lists root (g.walkFrom steps seen found stack) ∧
      ∀ r, g.Reaches root r → r < g.blocks.size := by
  have hstack : ∀ q ∈ stack, q ∈ found := fun q hq =>
    (hw.marked q).mp (List.dropWhile_eq_nil_iff.mp hdrop q hq)
  have hlast : found.getLast? = some root := by
    rcases hw.first with hlast | ⟨rfl, rfl⟩
    · exact hlast
    · simpa using hstack root (by simp)
  have hfound : ∀ r, g.Reaches root r → r ∈ found := by
    intro r hr
    induction hr with
    | refl => exact List.mem_of_getLast? hlast
    | tail _ hedge ih => exact (hw.closed _ ih _ hedge).elim id (hstack _)
  refine ⟨⟨found.reverse, walkFrom_nil hdrop, (List.reverse_perm found).nodup_iff.mpr hw.nodup,
    by simpa using hlast, fun r => ?_⟩, fun r hr => hw.there r (hfound r hr)⟩
  rw [List.mem_reverse]
  exact ⟨hw.reached r, hfound r⟩

theorem mem_of_length_le (hn : found.Nodup) (hlt : ∀ r ∈ found, r < n) (hlen : n ≤ found.length)
    (h : r < n) : r ∈ found := by
  have hsub : found ⊆ List.range n := fun q hq => List.mem_range.mpr (hlt q hq)
  have hperm := (List.subperm_of_subset hn hsub).perm_of_length_le (by simpa using hlen)
  exact hperm.mem_iff.mpr (List.mem_range.mpr h)

/-- A walk fails, which it does only if a block in reach is not there. -/
def Strays (g : Graph) (root : BlockRef) (result : Except Fault (List BlockRef)) : Prop :=
  (∃ f, result = .error f) ∧ ∃ r, g.Reaches root r ∧ g.blocks[r]? = none

theorem Walking.run (hw : g.Walking root steps seen found stack) :
    (g.Lists root (g.walkFrom steps seen found stack) ∧
      ∀ r, g.Reaches root r → r < g.blocks.size) ∨
      g.Strays root (g.walkFrom steps seen found stack) := by
  induction steps generalizing seen found stack with
  | zero =>
    cases hdrop : stack.dropWhile (seen.getD · false) with
    | nil => exact .inl (hw.finish hdrop)
    | cons r rest =>
      -- as many blocks were found as there are, so one that is left is not there
      obtain ⟨hfresh, hr, -⟩ := hw.split hdrop
      refine .inr ⟨⟨.absent, by rw [walkFrom, hdrop]⟩, r, hw.pending r hr, ?_⟩
      refine Array.getElem?_eq_none (Nat.le_of_not_lt fun hlt => hfresh ?_)
      exact mem_of_length_le hw.nodup hw.there (by simpa using hw.budget) hlt
  | succ steps ih =>
    cases hdrop : stack.dropWhile (seen.getD · false) with
    | nil => exact .inl (hw.finish hdrop)
    | cons r rest =>
      cases hb : g.blocks[r]? with
      | none =>
        refine .inr ⟨⟨.absent, by rw [walkFrom, hdrop]; simp only [hb]⟩, r, ?_, hb⟩
        exact hw.pending r (hw.split hdrop).2.1
      | some b =>
        rw [walkFrom_cons hdrop hb]
        exact ih (hw.step hdrop hb)

theorem lists_or_strays (g : Graph) (root : BlockRef) :
    (g.Lists root (g.walk (some root)) ∧ ∀ r, g.Reaches root r → r < g.blocks.size) ∨
      g.Strays root (g.walk (some root)) :=
  (Walking.start g root).run

theorem lists_walk (hin : ∀ r, g.Reaches root r → r < g.blocks.size) :
    g.Lists root (g.walk (some root)) := by
  refine ((g.lists_or_strays root).resolve_right ?_).1
  rintro ⟨-, r, hr, hnone⟩
  exact absurd (hin r hr) (Nat.not_lt.mpr (Array.getElem?_eq_none_iff.mp hnone))

end

end Linkage.Graph
