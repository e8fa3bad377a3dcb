import Linkage.Proofs.Building

/-!
# Code in front of a block

What it means to put code in front of a block, in one piece or instruction by instruction: a
mergeable block takes all of it, and before any other block it stands in a single new block. No
other block is touched, so a branch guards each of its edges by a test of its own, unless both
edges lead to one mergeable block, which then takes both tests.
-/

namespace Linkage

namespace Graph

-- ---------------------------------------------------------------------------
-- One block changed or created
-- ---------------------------------------------------------------------------

/-- A graph in which one block was changed or created, and nothing else. -/
structure Puts (g : Graph) (r : BlockRef) (b : Block) (g' : Graph) : Prop where
  block : g'.blocks[r]? = some b
  others : ∀ q, q ≠ r → g'.blocks[q]? = g.blocks[q]?
  calls : g'.calls = g.calls
  size : g'.blocks.size = max g.blocks.size (r + 1)
  /-- A block that is created takes an identity. -/
  issued : g'.issued + g.blocks.size = g.issued + g'.blocks.size

/-- Where code in front of a block stands, and the block that holds it then. -/
def front (g : Graph) (r : BlockRef) (b : Block) (code : List Instruction) : BlockRef × Block :=
  if b.mergeable then (r, { b with code := code ++ b.code })
  else (g.blocks.size, { id := g.issued, code, succs := [some r], mergeable := true })

section
variable {g g' : Graph} {r q : BlockRef} {b b' : Block} {i : Instruction}
  {code ys : List Instruction}

theorem size_setBlock (g : Graph) (r : BlockRef) (b : Block) :
    (g.setBlock r b).blocks.size = g.blocks.size := Array.size_setIfInBounds

theorem puts_setBlock (hr : r < g.blocks.size) : g.Puts r b (g.setBlock r b) where
  block := by rw [getElem?_setBlock, if_pos rfl, if_pos hr]
  others q hq := by rw [getElem?_setBlock, if_neg (Ne.symm hq)]
  calls := rfl
  size := by rw [size_setBlock, max_eq_left (Nat.succ_le_of_lt hr)]
  issued := by rw [size_setBlock]; rfl

theorem puts_allocate (g : Graph) (code : List Instruction) (succs : List (Option BlockRef))
    (mergeable : Bool) :
    g.Puts g.blocks.size { id := g.issued, code := orPlaceholder code, succs, mergeable }
      (g.allocate code succs mergeable).2 where
  block := by simp [allocate]
  others q hq := by rw [allocate, Array.getElem?_push, if_neg hq]
  calls := rfl
  size := by rw [max_eq_right (Nat.le_succ _)]; exact Array.size_push ..
  issued := by simp only [allocate, Array.size_push]; omega

theorem Puts.setBlock (h : g.Puts r b g') : g.Puts r b' (g'.setBlock r b') where
  block := by rw [getElem?_setBlock, if_pos rfl, if_pos (lt_size h.block)]
  others q hq := by rw [getElem?_setBlock, if_neg (Ne.symm hq), h.others q hq]
  calls := h.calls
  size := (size_setBlock ..).trans h.size
  issued := by rw [size_setBlock]; exact h.issued

theorem Puts.le (h : g.Puts r b g') : g.blocks.size ≤ g'.blocks.size :=
  h.size ▸ le_max_left ..

theorem Puts.keeps (h : g.Puts r b g') (hq : g.blocks[q]? = some b') (hne : q ≠ r) :
    g'.blocks[q]? = some b' := by
  rw [h.others q hne, hq]

theorem Puts.keeps_all (h : g.Puts g.blocks.size b g') (hq : g.blocks[q]? = some b') :
    g'.blocks[q]? = some b' :=
  h.keeps hq (lt_size hq).ne

-- ---------------------------------------------------------------------------
-- Code in front
-- ---------------------------------------------------------------------------

theorem front_of_mergeable (hm : b.mergeable = true) :
    g.front r b code = (r, { b with code := code ++ b.code }) := if_pos hm

theorem front_of_fixed (hm : b.mergeable = false) :
    g.front r b code =
      (g.blocks.size, { id := g.issued, code, succs := [some r], mergeable := true }) :=
  if_neg (by rw [hm]; exact Bool.false_ne_true)

theorem front_mergeable (g : Graph) (r : BlockRef) (b : Block) (code : List Instruction) :
    (g.front r b code).2.mergeable = true := by
  cases hm : b.mergeable with
  | true => rw [front_of_mergeable hm, hm]
  | false => rw [front_of_fixed hm]

theorem front_cons (g : Graph) (r : BlockRef) (b : Block) (i : Instruction)
    (code : List Instruction) :
    g.front r b (i :: code) = ((g.front r b code).1,
      { (g.front r b code).2 with code := i :: (g.front r b code).2.code }) := by
  cases hm : b.mergeable with
  | true => rw [front_of_mergeable hm, front_of_mergeable hm, List.cons_append]
  | false => rw [front_of_fixed hm, front_of_fixed hm]

theorem prefixedBy_of_mergeable (hb : g.blocks[r]? = some b) (hm : b.mergeable = true) :
    g.prefixedBy r i = (.ok r, g.setBlock r { b with code := i :: b.code }) := by
  rw [prefixedBy, hb]
  exact if_pos hm

theorem prefixedBy_puts (hb : g.blocks[r]? = some b) (hbuilt : b.built = true)
    (i : Instruction) :
    ∃ g', g.prefixedBy r i = (.ok (g.front r b [i]).1, g') ∧
      g.Puts (g.front r b [i]).1 (g.front r b [i]).2 g' := by
  cases hm : b.mergeable with
  | true =>
    rw [front_of_mergeable hm, prefixedBy_of_mergeable hb hm]
    exact ⟨_, rfl, puts_setBlock (lt_size hb)⟩
  | false =>
    rw [front_of_fixed hm, prefixedBy, hb]
    refine ⟨(g.allocate [i] [some r] true).2, ?_, puts_allocate g [i] [some r] true⟩
    simp only [hm, hbuilt, Bool.false_eq_true, if_false, if_true]
    rfl

/-- Of any instructions put in front of a block, at most the one put first makes a new block, which
takes the others. -/
theorem sequence_puts (hb : g.blocks[r]? = some b) (hbuilt : b.built = true) (hcode : code ≠ []) :
    ∃ g', g.sequence r code = (.ok (g.front r b code).1, g') ∧
      g.Puts (g.front r b code).1 (g.front r b code).2 g' := by
  induction code with
  | nil => exact absurd rfl hcode
  | cons i code ih =>
    cases code with
    | nil => exact prefixedBy_puts hb hbuilt i
    | cons j code =>
      obtain ⟨g', hsequence, hputs⟩ := ih (List.cons_ne_nil j code)
      rw [sequence, hsequence, front_cons g r b i]
      exact ⟨_, prefixedBy_of_mergeable hputs.block (front_mergeable ..), hputs.setBlock⟩

theorem sequence_append (h : g.sequence r ys = (.ok q, g')) (xs : List Instruction) :
    g'.sequence q xs = g.sequence r (xs ++ ys) := by
  induction xs with
  | nil => exact h.symm
  | cons i xs ih => rw [List.cons_append, sequence, sequence, ih]

/-- Instructions are put in front of a block as one unit. A mergeable block takes them before those
it has and nothing is created; before any other block they stand in one new block, which is
mergeable, has the next identity and leads to it. No other block changes, no instructions change
nothing, and it does not matter in how many pieces they come. -/
theorem sequence_prepends (hb : g.blocks[r]? = some b) (hbuilt : b.built = true) :
    (∀ xs, xs ≠ [] → b.mergeable = true → ∃ g', g.sequence r xs = (.ok r, g') ∧
        g'.blocks.size = g.blocks.size ∧ g'.issued = g.issued ∧ g'.calls = g.calls ∧
        g'.blocks[r]? = some { b with code := xs ++ b.code } ∧
        ∀ q, q ≠ r → g'.blocks[q]? = g.blocks[q]?) ∧
      (∀ xs, xs ≠ [] → b.mergeable = false → ∃ g', g.sequence r xs = (.ok g.blocks.size, g') ∧
        g'.blocks.size = g.blocks.size + 1 ∧ g'.issued = g.issued + 1 ∧ g'.calls = g.calls ∧
        g'.blocks[g.blocks.size]? =
          some { id := g.issued, code := xs, succs := [some r], mergeable := true } ∧
        ∀ q, q ≠ g.blocks.size → g'.blocks[q]? = g.blocks[q]?) ∧
      g.sequence r [] = (.ok r, g) ∧
      ∀ xs ys, ∃ q g', g.sequence r ys = (.ok q, g') ∧
        g'.sequence q xs = g.sequence r (xs ++ ys) := by
  refine ⟨fun xs hxs hm => ?_, fun xs hxs hm => ?_, rfl, fun xs ys => ?_⟩
  · obtain ⟨g', hsequence, hputs⟩ := sequence_puts hb hbuilt hxs
    rw [front_of_mergeable hm] at hsequence hputs
    have hsize : g'.blocks.size = g.blocks.size :=
      hputs.size.trans (max_eq_left (lt_size hb))
    have hissued := hputs.issued
    exact ⟨g', hsequence, hsize, by omega, hputs.calls, hputs.block, hputs.others⟩
  · obtain ⟨g', hsequence, hputs⟩ := sequence_puts hb hbuilt hxs
    rw [front_of_fixed hm] at hsequence hputs
    have hsize : g'.blocks.size = g.blocks.size + 1 :=
      hputs.size.trans (max_eq_right (Nat.le_succ _))
    have hissued := hputs.issued
    exact ⟨g', hsequence, hsize, by omega, hputs.calls, hputs.block, hputs.others⟩
  · cases ys with
    | nil => exact ⟨r, g, rfl, by rw [List.append_nil]⟩
    | cons i ys =>
      obtain ⟨g', hsequence, -⟩ := sequence_puts hb hbuilt (List.cons_ne_nil i ys)
      exact ⟨_, g', hsequence, sequence_append hsequence xs⟩

def loopEnds : Graph := applyAll {} [.pivot, .terminal (.ret .absent)]

theorem sequence_prepends_loopEnds :
    ∃ entry out, loopEnds.blocks[0]? = some entry ∧ entry.built = true ∧
      loopEnds.blocks[1]? = some out ∧ out.built = true ∧
      (∃ g', loopEnds.sequence 0 [.not, .nop] = (.ok 2, g') ∧ g'.blocks[2]? =
        some { id := 2, code := [.not, .nop], succs := [some 0], mergeable := true }) ∧
      ∃ g', loopEnds.sequence 1 [.not, .nop] = (.ok 1, g') ∧
        g'.blocks[1]? = some { out with code := [.not, .nop, .ret .absent] } := by
  refine ⟨_, _, rfl, rfl, rfl, rfl, ?_, ?_⟩
  · have hentry := sequence_prepends (g := loopEnds) (r := 0) rfl rfl
    obtain ⟨g', hsequence, -, -, -, hblock, -⟩ := hentry.2.1 [.not, .nop] (by decide) rfl
    exact ⟨g', hsequence, hblock⟩
  · have hout := sequence_prepends (g := loopEnds) (r := 1) rfl rfl
    obtain ⟨g', hsequence, -, -, -, hblock, -⟩ := hout.1 [.not, .nop] (by decide) rfl
    exact ⟨g', hsequence, hblock⟩

-- ---------------------------------------------------------------------------
-- Branches
-- ---------------------------------------------------------------------------

theorem ne_front (hq : q < g.blocks.size) (hne : b.mergeable = true → q ≠ r) :
    q ≠ (g.front r b code).1 := by
  cases hm : b.mergeable with
  | true =>
    rw [front_of_mergeable hm]
    exact hne hm
  | false =>
    rw [front_of_fixed hm]
    exact hq.ne

theorem front_built (g : Graph) (r : BlockRef) (code : List Instruction) (hbuilt : b.built = true) :
    (g.front r b code).2.built = true := by
  cases hm : b.mergeable with
  | true => rw [front_of_mergeable hm, hbuilt]
  | false => rw [front_of_fixed hm]

/-- The three changes that a branch makes. The second test is put in front of what `no` has become
by the first one. -/
theorem branch_puts (hyes : g.blocks[yes]? = some y) (hy : y.built = true)
    (hno : g.blocks[no]? = some n) (hn : n.built = true) (cond : Cond) (type : Ty) :
    ∃ g₁ n' g₂ g₃, g₁.blocks[no]? = some n' ∧
      g.Puts (g.front yes y [.guard cond type]).1 (g.front yes y [.guard cond type]).2 g₁ ∧
      g₁.Puts (g₁.front no n' [.guard cond.negate type]).1
        (g₁.front no n' [.guard cond.negate type]).2 g₂ ∧
      g₂.Puts g₂.blocks.size
        { id := g₂.issued, code := [.nop]
          succs := [some (g.front yes y [.guard cond type]).1,
            some (g₁.front no n' [.guard cond.negate type]).1]
          mergeable := true } g₃ ∧
      g.branch cond type (some yes) (some no) = (.ok g₂.blocks.size, g₃) := by
  obtain ⟨g₁, hfirst, hputs₁⟩ := prefixedBy_puts hyes hy (.guard cond type)
  obtain ⟨n', hn', hbuilt⟩ : ∃ n', g₁.blocks[no]? = some n' ∧ n'.built = true := by
    by_cases heq : no = (g.front yes y [.guard cond type]).1
    · exact ⟨_, heq ▸ hputs₁.block, front_built g yes _ hy⟩
    · exact ⟨n, hputs₁.keeps hno heq, hn⟩
  obtain ⟨g₂, hsecond, hputs₂⟩ := prefixedBy_puts hn' hbuilt (.guard cond.negate type)
  refine ⟨g₁, n', g₂, _, hn', hputs₁, hputs₂, puts_allocate g₂ [] _ true, ?_⟩
  rw [branch, hfirst]
  dsimp only
  rw [hsecond]
  rfl

end

end Graph

/-- The other condition of a pair. The codes of a pair follow each other, from an even one on. -/
def Cond.Opposite (c c' : Cond) : Prop := c'.code.toNat / 2 = c.code.toNat / 2 ∧ c' ≠ c

theorem Cond.opposite_negate (c : Cond) : c.Opposite c.negate := by
  have hcode : c.negate.code.toNat = c.code.toNat ^^^ 1 := UInt8.toNat_xor ..
  refine ⟨?_, fun heq => ?_⟩
  · rw [hcode, Nat.xor_div_two]
    exact Nat.xor_zero _
  · rw [heq] at hcode
    have hodd := Nat.xor_mod_two_eq_one (a := c.code.toNat) (b := 1)
    rw [← hcode] at hodd
    omega

namespace Graph

/-- What a branch makes of the block `r` at the end of an edge: the edge leads to the block itself,
with the test in front of what it held, or to a new block with nothing but the test. -/
structure Guarded (g : Graph) (r : BlockRef) (b : Block) (test : Instruction) (succ : BlockRef)
    (g' : Graph) : Prop where
  merged : b.mergeable = true →
    succ = r ∧ g'.blocks[r]? = some { b with code := test :: b.code }
  created : b.mergeable = false → g.blocks.size ≤ succ ∧ g'.blocks[r]? = some b ∧
    ∃ id, g'.blocks[succ]? = some { id, code := [test], succs := [some r], mergeable := true }

def Branches (g : Graph) (cond : Cond) (type : Ty) (yes : BlockRef) (y : Block) (no : BlockRef)
    (n : Block) (result : Except Fault BlockRef × Graph) : Prop :=
  ∃ r g' s₁ s₂, result = (.ok r, g') ∧ g.blocks.size ≤ r ∧
    (∃ id, g'.blocks[r]? =
      some { id, code := [.nop], succs := [some s₁, some s₂], mergeable := true }) ∧
    g.Guarded yes y (.guard cond type) s₁ g' ∧ g.Guarded no n (.guard cond.negate type) s₂ g'

section
variable {g g₀ g' : Graph} {r yes no : BlockRef} {b y n : Block} {i : Instruction} {cond : Cond}
  {type : Ty}

theorem guarded_front (hle : g₀.blocks.size ≤ g.blocks.size)
    (hfront : g'.blocks[(g.front r b [i]).1]? = some (g.front r b [i]).2)
    (hkept : b.mergeable = false → g'.blocks[r]? = some b) :
    g₀.Guarded r b i (g.front r b [i]).1 g' where
  merged hm := by
    rw [front_of_mergeable hm] at hfront ⊢
    exact ⟨rfl, hfront⟩
  created hm := by
    rw [front_of_fixed hm] at hfront ⊢
    exact ⟨hle, hkept hm, g.issued, hfront⟩

theorem branches_of_apart (hyes : g.blocks[yes]? = some y) (hy : y.built = true)
    (hno : g.blocks[no]? = some n) (hn : n.built = true)
    (hapart : ¬ (yes = no ∧ y.mergeable = true)) :
    g.Branches cond type yes y no n (g.branch cond type (some yes) (some no)) := by
  obtain ⟨g₁, n', g₂, g₃, hn', hputs₁, hputs₂, hputs₃, hbranch⟩ :=
    branch_puts hyes hy hno hn cond type
  -- the first test is not put into `no`, nor the second one into what holds the first
  have hfirst : no ≠ (g.front yes y [.guard cond type]).1 :=
    ne_front (lt_size hno) fun hm heq => hapart ⟨heq.symm, hm⟩
  obtain rfl : n' = n := Option.some.inj (hn'.symm.trans (hputs₁.keeps hno hfirst))
  have hsecond : (g.front yes y [.guard cond type]).1 ≠
      (g₁.front no n' [.guard cond.negate type]).1 :=
    ne_front (lt_size hputs₁.block) fun _ => hfirst.symm
  refine ⟨_, g₃, _, _, hbranch, hputs₁.le.trans hputs₂.le, ⟨_, hputs₃.block⟩,
    guarded_front le_rfl ?_ fun hm => ?_, guarded_front hputs₁.le ?_ fun hm => ?_⟩
  · exact hputs₃.keeps_all (hputs₂.keeps hputs₁.block hsecond)
  · have hkept₁ := hputs₁.keeps hyes (ne_front (lt_size hyes) fun h => by simp [hm] at h)
    have hkept₂ := hputs₂.keeps hkept₁ (ne_front (lt_size hkept₁) fun hm' heq => by
      subst heq
      simp [Option.some.inj (hyes.symm.trans hno), hm'] at hm)
    exact hputs₃.keeps_all hkept₂
  · exact hputs₃.keeps_all hputs₂.block
  · have hkept := hputs₂.keeps hn' (ne_front (lt_size hn') fun h => by simp [hm] at h)
    exact hputs₃.keeps_all hkept

theorem branch_onto_one (hyes : g.blocks[yes]? = some y) (hy : y.built = true)
    (hm : y.mergeable = true) (cond : Cond) (type : Ty) :
    ∃ r g', g.branch cond type (some yes) (some yes) = (.ok r, g') ∧ g.blocks.size ≤ r ∧
      (∃ id, g'.blocks[r]? =
        some { id, code := [.nop], succs := [some yes, some yes], mergeable := true }) ∧
      g'.blocks[yes]? =
        some { y with code := .guard cond.negate type :: .guard cond type :: y.code } := by
  obtain ⟨g₁, n', g₂, g₃, hn', hputs₁, hputs₂, hputs₃, hbranch⟩ :=
    branch_puts hyes hy hyes hy cond type
  rw [front_of_mergeable hm] at hputs₁ hputs₃
  have heq := Option.some.inj (hn'.symm.trans hputs₁.block)
  rw [front_of_mergeable (heq ▸ hm)] at hputs₂ hputs₃
  subst heq
  exact ⟨_, g₃, hbranch, hputs₁.le.trans hputs₂.le, ⟨_, hputs₃.block⟩,
    hputs₃.keeps_all hputs₂.block⟩

theorem branch_keeps (hyes : g.blocks[yes]? = some y) (hy : y.built = true)
    (hno : g.blocks[no]? = some n) (hn : n.built = true) (hb : g.blocks[r]? = some b)
    (hryes : r ≠ yes) (hrno : r ≠ no) :
    (g.branch cond type (some yes) (some no)).2.blocks[r]? = some b := by
  obtain ⟨g₁, n', g₂, g₃, -, hputs₁, hputs₂, hputs₃, hbranch⟩ :=
    branch_puts hyes hy hno hn cond type
  have hkept₁ := hputs₁.keeps hb (ne_front (lt_size hb) fun _ => hryes)
  have hkept₂ := hputs₂.keeps hkept₁ (ne_front (lt_size hkept₁) fun _ => hrno)
  rw [hbranch]
  exact hputs₃.keeps_all hkept₂

/-- A branch guards each of its edges by a test of its own, the second one by the opposite of the
first, exactly if its ends are not one and the same mergeable block. Such a block takes both tests,
so that neither edge is guarded by its own test alone. Blocks that the branch does not lead to stay
as they are. -/
theorem branch_guards_iff (hyes : g.blocks[yes]? = some y) (hy : y.built = true)
    (hno : g.blocks[no]? = some n) (hn : n.built = true) :
    cond.Opposite cond.negate ∧
      (g.Branches cond type yes y no n (g.branch cond type (some yes) (some no)) ↔
        ¬ (yes = no ∧ y.mergeable = true)) ∧
      (yes = no → y.mergeable = true →
        ∃ r g', g.branch cond type (some yes) (some no) = (.ok r, g') ∧ g.blocks.size ≤ r ∧
          (∃ id, g'.blocks[r]? =
            some { id, code := [.nop], succs := [some yes, some yes], mergeable := true }) ∧
          g'.blocks[yes]? =
            some { y with code := .guard cond.negate type :: .guard cond type :: y.code }) ∧
      ∀ r b, r ≠ yes → r ≠ no → g.blocks[r]? = some b →
        (g.branch cond type (some yes) (some no)).2.blocks[r]? = some b := by
  refine ⟨cond.opposite_negate, ⟨?_, branches_of_apart hyes hy hno hn⟩, ?_, ?_⟩
  · rintro ⟨r, g', s₁, s₂, hbranch, -, -, hguarded, -⟩ ⟨rfl, hm⟩
    obtain ⟨r', g'', hboth, -, -, hcode⟩ := branch_onto_one hyes hy hm cond type
    obtain ⟨-, rfl⟩ := Prod.mk.inj (hbranch.symm.trans hboth)
    have hown := (hguarded.merged hm).2.symm.trans hcode
    simp at hown
  · rintro rfl hm
    exact branch_onto_one hyes hy hm cond type
  · intro r b hryes hrno hb
    exact branch_keeps hyes hy hno hn hb hryes hrno

theorem branch_guards_iff_loopEnds :
    ∃ entry out, loopEnds.blocks[0]? = some entry ∧ entry.built = true ∧
      loopEnds.blocks[1]? = some out ∧ out.built = true ∧
      loopEnds.Branches .isTrue .absent 0 entry 0 entry
        (loopEnds.branch .isTrue .absent (some 0) (some 0)) ∧
      loopEnds.Branches .isTrue .absent 0 entry 1 out
        (loopEnds.branch .isTrue .absent (some 0) (some 1)) := by
  refine ⟨_, _, rfl, rfl, rfl, rfl, ?_, ?_⟩
  · exact (branch_guards_iff rfl rfl rfl rfl).2.1.mpr (by decide)
  · exact (branch_guards_iff rfl rfl rfl rfl).2.1.mpr (by decide)

/-- The way out cannot be both ends of a branch: it would start with the test of the second edge on
both of them. -/
theorem branch_guards_neither :
    ∃ out, loopEnds.blocks[1]? = some out ∧ out.built = true ∧
      ¬ loopEnds.Branches .isTrue .absent 1 out 1 out
        (loopEnds.branch .isTrue .absent (some 1) (some 1)) := by
  refine ⟨_, rfl, rfl, ?_⟩
  rintro ⟨r, g', s₁, s₂, hbranch, -, -, hguarded, -⟩
  have hcode : (loopEnds.branch .isTrue .absent (some 1) (some 1)).2.blocks[1]?.map (·.code) =
      some [.guard ⟨1⟩ .absent, .guard ⟨0⟩ .absent, .ret .absent] := by decide
  rw [hbranch, (hguarded.merged rfl).2] at hcode
  exact absurd hcode (by decide)

end

end Graph

end Linkage
