import Linkage.Proofs.LinkedImage

/-!
# What a cleanup keeps

Three walks have to agree on the blocks of a linked program: the cleanup, which prunes and goes
through calls, the listing of a body, which does neither, and the encoder, which numbers blocks that
bodies share. They do (`Program.cleanup_agrees`), although a block may be processed early and be
taken from some of its predecessors later. The invariant is that every block met so far hangs on the
root of a body by successors that are left to processed blocks, and those stay for good.
-/

namespace Linkage

/-- What instructions name as fields has no code. -/
def Graph.FieldsTyped (d : Declarations) (g : Graph) : Prop :=
  ∀ b ∈ g.blocks, ∀ i ∈ b.code, ∀ m ∈ i.field?, d.isCode m = false

instance (d : Declarations) (g : Graph) : Decidable (g.FieldsTyped d) :=
  inferInstanceAs (Decidable (∀ b ∈ g.blocks, ∀ i ∈ b.code, ∀ m ∈ i.field?, d.isCode m = false))

def Block.CallsNamed (calls : Array Call) (b : Block) : Prop :=
  ∀ site, .call site ∈ b.code → ∀ c, calls[site]? = some c → c.callee ≠ none

theorem Registry.StoreClosed.pruned {d : Declarations} {g g' : Graph} {V : Set BlockRef}
    {code part : Registry} {entry : MemberId} (h : code.StoreClosed d g entry)
    (hprune : g.PrunedTo g' V) (hsub : part.Sublist code) : part.StoreClosed d g' entry := by
  have horigin : ∀ b ∈ g'.blocks, ∃ b₀ ∈ g.blocks, b.code = b₀.code ∧ b.succs.Sublist b₀.succs := by
    intro b hb
    obtain ⟨r, hr⟩ := Array.mem_iff_getElem?.mp hb
    obtain ⟨b₀, hb₀, hcode, hsuccs, -⟩ := hprune.origin hr
    exact ⟨b₀, Array.mem_of_getElem? hb₀, hcode, hsuccs⟩
  refine ⟨h.main, fun body hbody => h.bodies body (hsub.subset hbody),
    fun body hbody r hr => hprune.size ▸ h.roots body (hsub.subset hbody) r hr, h.supers, h.owners,
    h.types, fun b hb succ hsucc r hr => ?_, fun b hb i hi => ?_, fun b hb i hi => ?_⟩
  · obtain ⟨b₀, hb₀, -, hsuccs⟩ := horigin b hb
    exact hprune.size ▸ h.succs b₀ hb₀ succ (hsuccs.subset hsucc) r hr
  · obtain ⟨b₀, hb₀, hcode, -⟩ := horigin b hb
    exact h.operands b₀ hb₀ i (hcode ▸ hi)
  · obtain ⟨b₀, hb₀, hcode, -⟩ := horigin b hb
    rw [hprune.calls]
    exact h.names b₀ hb₀ i (hcode ▸ hi)

namespace Sweep

/-- The block is in the body of a member that was found, along successors that are left to blocks
processed before. -/
def Anchored (code : Registry) (s : Sweep) (q : BlockRef) : Prop :=
  ∃ m ∈ s.reachable, ∃ root, code.body? m = some root ∧
    Relation.ReflTransGen (fun r r' => r ∈ s.visited ∧ s.graph.Edge r r') root q

/-- What holds of the blocks met in a walk of `g` from `entry` as long as nothing failed. -/
structure Spans (code : Registry) (g : Graph) (entry : MemberId) (s : Sweep) : Prop where
  anchored : ∀ q ∈ s.met, s.Anchored code q
  meets : ∀ q ∈ s.met, ∃ m, code.Meets g entry m q
  succs : ∀ r ∈ s.visited, ∀ q, s.graph.Edge r q → q ∈ s.met
  sites : ∀ r ∈ s.visited, ∀ b, g.blocks[r]? = some b → ∀ site, .call site ∈ b.code →
    ∃ c, g.calls[site]? = some c
  members : ∀ m ∈ s.reachable, (∃ root ∈ s.met, code.body? m = some root) ∨
    ∃ r ∈ s.visited, ∃ b, g.blocks[r]? = some b ∧ ∃ i ∈ b.code, i.field? = some m

section
variable {code : Registry} {g : Graph} {entry m : MemberId} {s t : Sweep} {f f' : Frame}
  {stack : List Frame} {root r q : BlockRef} {b : Block}

theorem mem_noted {ms : List MemberId} {notes : List Note} :
    m ∈ noted ms notes ↔ m ∈ ms ∨ ∃ n ∈ notes, n.member = m := by
  induction notes generalizing ms with
  | nil => simp [noted]
  | cons n rest ih =>
    show m ∈ noted (if n.member ∈ ms then ms else ms ++ [n.member]) rest ↔ _
    rw [ih]
    split <;> grind

theorem block_of_frames (h : f' ∈ frames code g f b) (hq : f'.block = some q) :
    (some q ∈ b.succs ∧ g.isLive (some q) = true) ∨
      ∃ n ∈ (Note.ofCode code g.calls f b.code).1, n.body = some (some q) := by
  rcases List.mem_append.mp h with h | h
  · obtain ⟨succ, hsucc, rfl⟩ := List.mem_map.mp h
    obtain rfl : succ = some q := hq
    exact .inl (List.mem_filter.mp hsucc)
  · obtain ⟨n, hn, hframe⟩ := List.mem_filterMap.mp (List.mem_reverse.mp h)
    obtain ⟨root, hroot, rfl⟩ := Option.map_eq_some_iff.mp hframe
    obtain rfl : root = some q := hq
    exact .inr ⟨n, hn, hroot⟩

theorem mem_frames_of_note (f : Frame) (b : Block) {n : Note}
    (hn : n ∈ (Note.ofCode code g.calls f b.code).1) (hbody : n.body = some (some q)) :
    ⟨some q, n.member⟩ ∈ frames code g f b := by
  refine List.mem_append_right _ (List.mem_reverse.mpr (List.mem_filterMap.mpr ⟨n, hn, ?_⟩))
  simp [Note.frame?, hbody]

theorem Anchored.step (h : s.Anchored code q) (hreach : s.reachable ⊆ t.reachable)
    (hedges : ∀ r ∈ s.visited, r ∈ t.visited ∧ ∀ q, s.graph.Edge r q → t.graph.Edge r q) :
    t.Anchored code q := by
  obtain ⟨m, hm, root, hroot, hpath⟩ := h
  exact ⟨m, hreach hm, root, hroot,
    hpath.lift id fun r r' ⟨hr, hedge⟩ => ⟨(hedges r hr).1, (hedges r hr).2 r' hedge⟩⟩

theorem spans_start (hroot : code.body? entry = some root) :
    (start g entry root).Spans code g entry := by
  have hnone : ∀ r, r ∉ (start g entry root).visited := by simp [visited_start]
  have hmet : ∀ q, q ∈ (start g entry root).met ↔ q = root := by
    intro q
    rw [met, visited_start]
    simp [start, eq_comm]
  refine ⟨?_, ?_, fun r hr => absurd hr (hnone r), fun r hr => absurd hr (hnone r), ?_⟩
  · intro q hq
    obtain rfl := (hmet q).mp hq
    exact ⟨entry, List.mem_singleton.mpr rfl, q, hroot, .refl⟩
  · intro q hq
    obtain rfl := (hmet q).mp hq
    exact ⟨entry, .entry hroot⟩
  · intro m hm
    obtain rfl := List.mem_singleton.mp hm
    exact .inl ⟨root, (hmet root).mpr rfl, hroot⟩

theorem Spans.next (h : s.Spans code g entry) (hs : s.Sound code g entry) (hrooted : code.Rooted)
    (hstack : s.stack.dropWhile s.isSeen = f :: stack) (hr : f.block = some r)
    (hb : s.graph.blocks[r]? = some b) (hv : verdict code s.graph.calls f r b = none) :
    (s.next code f stack r b).Spans code g entry := by
  have hnew := not_mem_visited (isSeen_of_dropWhile hstack) hr
  obtain ⟨hb₀, hlt⟩ := hs.block hnew hb
  obtain ⟨-, -, hnotes⟩ := verdict_eq_none.mp hv
  have hnext := hs.next hstack hr hb hv
  have hvisited : (s.next code f stack r b).visited = insert r s.visited := visited_next hlt
  have hmet : (s.next code f stack r b).met = _ := met_next hstack hr hlt
  have hrmet : r ∈ s.met := .inr ⟨f, (mem_of_dropWhile hstack).1, hr⟩
  have hreach : s.reachable ⊆ (s.next code f stack r b).reachable :=
    fun m hm => mem_noted.mpr (.inl hm)
  have hold : ∀ q, r ≠ q → (s.next code f stack r b).graph.blocks[q]? = s.graph.blocks[q]? :=
    fun q hq => by simp [Sweep.next, prune, Graph.getElem?_setBlock, hq]
  have hedges : ∀ q ∈ s.visited, q ∈ (s.next code f stack r b).visited ∧
      ∀ q', s.graph.Edge q q' → (s.next code f stack r b).graph.Edge q q' := by
    intro q hq
    refine ⟨hvisited ▸ Set.mem_insert_of_mem r hq, ?_⟩
    rintro q' ⟨b', hb', hmem⟩
    exact ⟨b', (hold q fun heq => hnew (heq ▸ hq)).trans hb', hmem⟩
  have hanchored : ∀ q ∈ s.met, (s.next code f stack r b).Anchored code q :=
    fun q hq => (h.anchored q hq).step hreach hedges
  have hnoted : ∀ n ∈ (Note.ofCode code s.graph.calls f b.code).1,
      ∃ i ∈ b.code, Note.Of code g.calls i n := by
    rw [hs.pruned.calls]
    exact fun n hn => Note.of_mem_ofCode hn
  refine ⟨?_, ?_, ?_, ?_, ?_⟩
  · intro q hq
    rw [hmet] at hq
    rcases hq with hq | ⟨f', hf', hq⟩
    · exact hanchored q hq
    · rcases block_of_frames hf' hq with ⟨hsucc, hlive⟩ | ⟨n, hn, hbody⟩
      · -- the edge to a successor that is kept goes out of the block just processed
        obtain ⟨m, hm, root, hroot, hpath⟩ := hanchored r hrmet
        have hedge : (s.next code f stack r b).graph.Edge r q :=
          ⟨_, next_block hb, List.mem_filter.mpr ⟨hsucc, hlive⟩⟩
        exact ⟨m, hm, root, hroot, hpath.tail ⟨hvisited ▸ Set.mem_insert r _, hedge⟩⟩
      · obtain ⟨i, -, hof⟩ := hnoted n hn
        simp only [Note.Of, hbody] at hof
        obtain ⟨-, -, -, -, -, hfind⟩ := hof
        exact ⟨n.member, mem_noted.mpr (.inr ⟨n, hn, rfl⟩), q,
          Registry.body?_eq_some.mpr hfind, .refl⟩
  · intro q hq
    rw [hmet] at hq
    rcases hq with hq | ⟨f', hf', hq⟩
    · exact h.meets q hq
    · exact ⟨f'.member, hnext.meets f' (List.mem_append_left _ hf') q hq⟩
  · intro q hq q' hedge
    rw [hmet]
    rcases Set.mem_insert_iff.mp (hvisited ▸ hq) with rfl | hq
    · obtain ⟨b', hb', hmem⟩ := hedge
      obtain rfl := Option.some.inj ((next_block hb).symm.trans hb')
      exact .inr ⟨⟨some q', f.member⟩,
        List.mem_append_left _ (List.mem_map_of_mem hmem), rfl⟩
    · obtain ⟨b', hb', hmem⟩ := hedge
      rw [hold q fun heq => hnew (heq ▸ hq)] at hb'
      exact .inl (h.succs q hq q' ⟨b', hb', hmem⟩)
  · intro q hq b' hb' site hsite
    rcases Set.mem_insert_iff.mp (hvisited ▸ hq) with rfl | hq
    · obtain rfl := Option.some.inj (hb₀.symm.trans hb')
      have hsome := (Note.ofCode_none hnotes hsite).1
      rw [← hs.pruned.calls]
      cases hc : s.graph.calls[site]? with
      | none => simp [Note.ofInstruction, hc] at hsome
      | some c => exact ⟨c, rfl⟩
    · exact h.sites q hq b' hb' site hsite
  · intro m hm
    rcases mem_noted.mp hm with hm | ⟨n, hn, rfl⟩
    · rcases h.members m hm with ⟨root, hroot, hbody⟩ | ⟨q, hq, hfield⟩
      · exact .inl ⟨root, hmet ▸ .inl hroot, hbody⟩
      · exact .inr ⟨q, (hedges q hq).1, hfield⟩
    · obtain ⟨i, hi, hof⟩ := hnoted n hn
      cases hbody : n.body with
      | none =>
        refine .inr ⟨r, hvisited ▸ Set.mem_insert r _, b, hb₀, i, hi, ?_⟩
        simp only [Note.Of, hbody] at hof
        rcases hof with rfl | rfl <;> rfl
      | some root =>
        simp only [Note.Of, hbody] at hof
        obtain ⟨-, -, -, -, -, hfind⟩ := hof
        cases root with
        | none => exact absurd hfind hrooted.find_ne
        | some q =>
          exact .inl ⟨q, hmet ▸ .inr ⟨_, mem_frames_of_note f b hn hbody, rfl⟩,
            Registry.body?_eq_some.mpr hfind⟩

theorem Ends.spans (h : Ends code s (.ok t)) (hs : s.Sound code g entry)
    (hspans : s.Spans code g entry) (hrooted : code.Rooted) : t.Spans code g entry := by
  generalize ho : Except.ok (ε := Failure) t = o at h
  induction h with
  | @done s hstack =>
    cases ho
    have hmet : ∀ q, q ∈ ({ s with stack := [] } : Sweep).met ↔ q ∈ s.met := by
      intro q
      rw [met_eq_visited hstack, met_eq_visited rfl]
      rfl
    refine ⟨fun q hq => hspans.anchored q ((hmet q).mp hq),
      fun q hq => hspans.meets q ((hmet q).mp hq),
      fun r hr q hedge => (hmet q).mpr (hspans.succs r hr q hedge), hspans.sites, fun m hm => ?_⟩
    exact (hspans.members m hm).imp_left fun ⟨root, hroot, hbody⟩ =>
      ⟨root, (hmet root).mpr hroot, hbody⟩
  | @step s f stack r b o hstack hr hb hv _ ih =>
    exact ih (hs.next hstack hr hb hv) (hspans.next hs hrooted hstack hr hb hv) ho
  | fail => cases ho

end

-- ---------------------------------------------------------------------------
-- At the end of a walk
-- ---------------------------------------------------------------------------

/-- A walk that came to its end in a program whose bodies are those of methods and constructors. -/
structure Kept (d : Declarations) (code : Registry) (g : Graph) (entry : MemberId) (t : Sweep) :
    Prop where
  bodies : ∀ body ∈ code, d.isCode body.1
  fields : g.FieldsTyped d
  sound : t.Sound code g entry
  complete : t.Complete code g entry
  spans : t.Spans code g entry
  stack : t.stack = []

namespace Kept

section
variable {d : Declarations} {code : Registry} {g : Graph} {entry m : MemberId} {t : Sweep}
  {root r q : BlockRef} {b : Block}

theorem met_eq (h : t.Kept d code g entry) : t.met = t.visited :=
  met_eq_visited (by simp [h.stack])

theorem body_of_isCode (h : t.Kept d code g entry) (hm : m ∈ t.reachable)
    (hcode : d.isCode m = true) : ∃ root ∈ t.visited, code.body? m = some root := by
  rcases h.spans.members m hm with hbody | ⟨r, -, b, hb, i, hi, hfield⟩
  · exact h.met_eq ▸ hbody
  · simp [h.fields b (Array.mem_of_getElem? hb) i hi m hfield] at hcode

theorem isCode_of_body (h : t.Kept d code g entry) (hroot : code.body? m = some root) :
    d.isCode m = true :=
  h.bodies _ (Registry.mem_of_find (Registry.body?_eq_some.mp hroot))

/-- The processed blocks are those of the bodies that are left. -/
theorem mem_visited_iff_lists (h : t.Kept d code g entry) :
    q ∈ t.visited ↔ (code.restrict t.reachable).ListsBlock t.graph q := by
  constructor
  · intro hq
    obtain ⟨m, hm, root, hroot, hpath⟩ := h.spans.anchored q (.inl hq)
    exact ⟨m, root, Registry.body?_restrict.mpr ⟨hm, hroot⟩, hpath.lift id fun _ _ h => h.2⟩
  · rintro ⟨m, root, hroot, hpath⟩
    obtain ⟨hm, hbody⟩ := Registry.body?_restrict.mp hroot
    obtain ⟨root', hvisited, hroot'⟩ := h.body_of_isCode hm (h.isCode_of_body hbody)
    obtain rfl := Option.some.inj (hroot'.symm.trans hbody)
    induction hpath with
    | refl => exact hvisited
    | tail _ hedge ih => exact h.met_eq ▸ h.spans.succs _ ih _ hedge

/-- They are the blocks in reach before, without the dead leaves that are no root of a body. -/
theorem mem_visited_iff_meets (h : t.Kept d code g entry) :
    q ∈ t.visited ↔ (∃ m, code.Meets g entry m q) ∧
      ¬ (g.DeadLeaf q ∧ ∀ m ∈ t.reachable, code.body? m ≠ some q) := by
  constructor
  · intro hq
    refine ⟨h.spans.meets q (.inl hq), fun ⟨hdead, hnone⟩ => ?_⟩
    obtain ⟨m, hm, root, hroot, hpath⟩ := h.spans.anchored q (.inl hq)
    -- no processed block leads to it, so it hangs on no other block
    rcases Relation.ReflTransGen.cases_tail hpath with rfl | ⟨r, -, hr, hedge⟩
    · exact hnone m hm hroot
    · exact h.complete.gone r hr q hdead hedge
  · rintro ⟨⟨m, hm⟩, hlive⟩
    rcases h.complete.covers_of_meets h.stack hm with hq | ⟨f, hf, -⟩ | hdead
    · exact hq
    · simp [h.stack] at hf
    · have hbody : ∃ m ∈ t.reachable, code.body? m = some q := by
        by_contra hnone
        exact hlive ⟨hdead, fun m hm hroot => hnone ⟨m, hm, hroot⟩⟩
      obtain ⟨m, hm, hroot⟩ := hbody
      obtain ⟨root, hvisited, hroot'⟩ := h.body_of_isCode hm (h.isCode_of_body hroot)
      obtain rfl := Option.some.inj (hroot'.symm.trans hroot)
      exact hvisited

theorem lists_walk (h : t.Kept d code g entry) (hm : m ∈ t.reachable)
    (hroot : code.body? m = some root) : t.graph.Lists root (t.graph.walk (some root)) := by
  refine Graph.lists_walk fun r hr => ?_
  have hvisited := h.mem_visited_iff_lists.mpr
    ⟨m, root, Registry.body?_restrict.mpr ⟨hm, hroot⟩, hr⟩
  rw [h.sound.pruned.size, ← h.sound.seen]
  exact t.visited_subset hvisited

theorem listsMember (h : t.Kept d code g entry) (hm : m ∈ t.reachable) :
    (code.restrict t.reachable).ListsMember t.graph entry m := by
  rcases h.spans.members m hm with ⟨root, -, hroot⟩ | ⟨r, hr, b, hb, i, hi, hfield⟩
  · refine .body ?_
    rw [Registry.find_restrict, if_pos hm, Registry.body?_eq_some.mp hroot]
    rfl
  · obtain ⟨succs, hb', -, -, -⟩ := h.sound.pruned.block hb
    refine .named (h.mem_visited_iff_lists.mp hr) hb' hi ?_
    cases i with
    | getField m' =>
      obtain rfl := Option.some.inj hfield
      exact .get
    | putField m' =>
      obtain rfl := Option.some.inj hfield
      exact .put
    | _ => cases hfield

theorem mem_order (h : t.Kept d code g entry) :
    m ∈ t.reachable.filter d.isCode ↔ ∃ root, (code.restrict t.reachable).body? m = some root := by
  rw [List.mem_filter]
  constructor
  · rintro ⟨hm, hcode⟩
    obtain ⟨root, -, hroot⟩ := h.body_of_isCode hm hcode
    exact ⟨root, Registry.body?_restrict.mpr ⟨hm, hroot⟩⟩
  · rintro ⟨root, hroot⟩
    obtain ⟨hm, hbody⟩ := Registry.body?_restrict.mp hroot
    exact ⟨hm, h.isCode_of_body hbody⟩

theorem order_eq (h : t.Kept d code g entry) :
    (t.reachable.filter d.isCode).filter (fun m => (code.find m).isSome) =
      t.reachable.filter d.isCode := by
  refine List.filter_eq_self.mpr fun m hm => ?_
  obtain ⟨root, hroot⟩ := h.mem_order.mp hm
  rw [Registry.body?_eq_some.mp (Registry.body?_restrict.mp hroot).2]
  rfl

/-- All that an image of the program lists is there exactly if no static callee, member or class is
missing: what else may be missing in a block was checked by the walk. -/
theorem complete_iff (h : t.Kept d code g entry) (hrooted : code.Rooted) :
    (code.restrict t.reachable).Complete d t.graph entry ↔
      (∀ r ∈ t.visited, ∀ b, g.blocks[r]? = some b → b.CallsNamed g.calls) ∧
      (∀ m, (code.restrict t.reachable).ListsMember t.graph entry m → m < d.members.size) ∧
      ∀ c, (code.restrict t.reachable).ListsClass d t.graph entry c → c < d.classes.size := by
  constructor
  · intro hc
    refine ⟨fun r hr b hb site hsite c hcall hnone => ?_, fun m hm => ?_, fun c hlists => ?_⟩
    · obtain ⟨b', hb', hcomplete⟩ := hc.blocks r (h.mem_visited_iff_lists.mp hr)
      obtain ⟨b₀, hb₀, hcode, -, -⟩ := h.sound.pruned.origin hb'
      obtain rfl := Option.some.inj (hb.symm.trans hb₀)
      obtain ⟨c', hcall', hno⟩ := hcomplete.code _ (hcode ▸ hsite)
      rw [h.sound.pruned.calls] at hcall'
      obtain rfl := Option.some.inj (hcall.symm.trans hcall')
      exact hno (by simp [hnone])
    · obtain ⟨k, hk⟩ := hc.members m hm
      exact (Array.getElem?_eq_some_iff.mp hk).1
    · obtain ⟨k, hk⟩ := hc.classes c hlists
      exact (Array.getElem?_eq_some_iff.mp hk).1
  · rintro ⟨hnamed, hmembers, hclasses⟩
    refine ⟨fun body hbody => hrooted body (List.mem_of_mem_filter hbody),
      fun c hc => ⟨_, Array.getElem?_eq_getElem (hclasses c hc)⟩,
      fun m hm => ⟨_, Array.getElem?_eq_getElem (hmembers m hm)⟩, fun r hr => ?_⟩
    have hvisited := h.mem_visited_iff_lists.mpr hr
    obtain ⟨b, hb, hsettled⟩ := h.complete.block r hvisited
    obtain ⟨succs, hb', -, hsub, -⟩ := h.sound.pruned.block hb
    refine ⟨_, hb', fun hnone => ?_, fun i hi => ?_⟩
    · exact hsettled.sound _ none (.nilSuccessor (hsub.subset hnone))
    · rw [h.sound.pruned.calls]
      cases i with
      | call site =>
        obtain ⟨c, hc⟩ := h.spans.sites r hvisited b hb site hi
        refine ⟨c, hc, fun hnone => ?_⟩
        rcases List.mem_cons.mp hnone with hnone | hnone
        · exact hnamed r hvisited b hb site hi c hc hnone.symm
        · cases hts : c.targets with
          | none => simp [Call.targetList, hts] at hnone
          | some ts =>
            have hmem : none ∈ ts := by simpa [Call.targetList, hts] using hnone
            have hflaw : b.Flaw code g.calls (.missingCode entry) none :=
              .missing hi hc hts hmem rfl
            exact hsettled.sound _ none hflaw
      | _ => trivial

end

end Kept

end Sweep

-- ---------------------------------------------------------------------------
-- The encoder
-- ---------------------------------------------------------------------------

namespace Image

open Encoder

section
variable {d : Declarations} {g : Graph} {code : Registry} {entry : MemberId} {runId : RunId}
  {t : Sweep} {count : Nat}

theorem exists_bodies_of_kept (h : t.Kept d code g entry) :
    ∃ bodies : List (MemberId × BlockRef), bodies.map (·.1) = t.reachable.filter d.isCode ∧
      (∀ m root, (m, root) ∈ bodies ↔ (code.restrict t.reachable).body? m = some root) ∧
      ∀ E : Prop, ∀ m root, (m, root) ∈ bodies →
        (code.restrict t.reachable).ListsMember t.graph entry m ∧
          ((code.body? m = some root ∧ (code.restrict t.reachable).ListsBlock t.graph root) ∨
            (code.body? m = none ∧ E)) := by
  obtain ⟨bodies, horder, hbodies⟩ := exists_bodies_of_order fun m => h.mem_order (m := m)
  refine ⟨bodies, horder, hbodies, fun E m root hmem => ?_⟩
  have hroot := (hbodies m root).mp hmem
  obtain ⟨hm, hbody⟩ := Registry.body?_restrict.mp hroot
  exact ⟨h.listsMember hm, .inl ⟨hbody, m, root, hroot, .refl⟩⟩

/-- The image of a linked program, if there is one, is put together from the bodies of the members
in reach. -/
theorem ofProgram_ok {img : Image} (h : t.Kept d code g entry) (hrooted : code.Rooted)
    (himg : ofProgram d t.graph code ⟨entry, t.reachable, count⟩ runId = .ok img) :
    (code.restrict t.reachable).Complete d t.graph entry ∧
      ∃ n : Numbering, n.Covers d t.graph (code.restrict t.reachable) entry ∧
        n.bodies.map (·.1) = t.reachable.filter d.isCode ∧
        img = (n.image d t.graph entry runId).listing
          (t.reachable.map fun m => position (number n.members m)) := by
  obtain ⟨bodies, horder, hbodies, hall⟩ := exists_bodies_of_kept h
  have hpart : (code.restrict t.reachable).Rooted :=
    fun body hbody => hrooted body (List.mem_of_mem_filter hbody)
  have himg' : Encoder.image d t.graph code (some entry) (bodies.map (·.1)) runId
      (some t.reachable) = .ok img := by
    rw [horder, ← h.order_eq]
    exact himg
  obtain ⟨⟨out, s⟩, hrun, -⟩ := bind_ok.mp himg'
  obtain ⟨bs, hwrote⟩ := (write_yields (fun _ => trivial) (hall True)
    fun m hm => h.listsMember hm).of_ok hrun
  have hcovers := covers_of_laid hwrote.laid (fun m => hpart.find_isSome.mp) hwrote.main
    (horder ▸ h.sound.nodup.filter _) hbodies fun m root hmem => (hwrote.placed m root hmem).2
  have himage : Encoder.image d t.graph code (some entry) (bodies.map (·.1)) runId
    (some t.reachable) = _ := image_of_wrote hrun hwrote runId
  exact ⟨complete_of_laid hpart hwrote.laid hcovers, _, hcovers, horder,
    Except.ok.inj (himg'.symm.trans himage)⟩

theorem exists_ofProgram (h : t.Kept d code g entry) (runId : RunId) (count : Nat)
    (hcomplete : (code.restrict t.reachable).Complete d t.graph entry) :
    ∃ img, ofProgram d t.graph code ⟨entry, t.reachable, count⟩ runId = .ok img := by
  obtain ⟨bodies, horder, hbodies, hall⟩ := exists_bodies_of_kept h
  obtain ⟨out, s, hrun, bs, hwrote⟩ := (write_yields (fun hno => hno hcomplete) (hall False)
    fun m hm => h.listsMember hm).exists_ok
  have himage : Encoder.image d t.graph code (some entry) (bodies.map (·.1)) runId
    (some t.reachable) = _ := image_of_wrote hrun hwrote runId
  rw [horder, ← h.order_eq] at himage
  exact ⟨_, himage⟩

end

end Image

-- ---------------------------------------------------------------------------
-- Agreement
-- ---------------------------------------------------------------------------

namespace Program

open Image.Encoder (position nonempty)

section
variable {d : Declarations} {g : Graph} {code : Registry} {p : Program}

theorem exists_kept (hrooted : code.Rooted) (hbodies : ∀ body ∈ code, d.isCode body.1)
    (hfields : g.FieldsTyped d) (hok : (p.cleanup code g).failure = none) :
    ∃ t : Sweep, t.Kept d code g p.entry ∧
      p.cleanup code g = ⟨t.graph, ⟨p.entry, t.reachable, t.count⟩, none⟩ ∧
      ∀ r, p.Visits code g r ↔ r ∈ t.visited := by
  obtain ⟨root, t, hroot, hends⟩ := ends_of_cleanup hok
  obtain ⟨hsound, hcomplete, hstack⟩ := hends.complete hroot
  have hspans := hends.spans (Sweep.sound_start hroot) (Sweep.spans_start hroot) hrooted
  obtain ⟨hclean, hvisits⟩ := cleanup_of_ends hroot hends
  exact ⟨t, ⟨hbodies, hfields, hsound, hcomplete, hspans, hstack⟩, hclean, hvisits⟩

theorem closed_cleanup (hclosed : code.StoreClosed d g p.entry) (hrooted : code.Rooted)
    (hfields : g.FieldsTyped d) (hok : (p.cleanup code g).failure = none) :
    (code.restrict (p.cleanup code g).program.reachable).StoreClosed d (p.cleanup code g).graph
      p.entry := by
  obtain ⟨t, h, hclean, -⟩ := exists_kept hrooted hclosed.bodies hfields hok
  rw [hclean]
  exact hclosed.pruned h.sound.pruned List.filter_sublist

/-- What a cleanup without failure visits is what listing the bodies in reach gives, and what was in
reach before without the dead leaves that are no root of such a body. Every method and constructor
in reach has a body. If the program can be written, the image has one row for each visited block and
one body for each of these members; it can be written exactly if the calls of visited blocks have
static callees and no member or class that the image would list is missing. -/
theorem cleanup_agrees (p : Program) (runId : RunId) (hrooted : code.Rooted)
    (hbodies : ∀ body ∈ code, d.isCode body.1) (hfields : g.FieldsTyped d)
    (hok : (p.cleanup code g).failure = none) :
    let kept := p.cleanup code g
    let members := kept.program.reachableCode d
    let left := code.restrict kept.program.reachable
    let written := Image.encodeProgram d kept.graph code kept.program runId
    (∀ r, p.Visits code g r ↔ ∃ m ∈ members, ∃ root listed, code.body? m = some root ∧
      kept.graph.walk (some root) = .ok listed ∧ r ∈ listed) ∧
    (∀ r, p.Visits code g r ↔ (∃ m, code.Meets g p.entry m r) ∧
      ¬ (g.DeadLeaf r ∧ ∀ m ∈ members, code.body? m ≠ some r)) ∧
    (∀ m ∈ members, ∃ root listed, code.body? m = some root ∧
      kept.graph.walk (some root) = .ok listed) ∧
    ((∃ bytes, written = .ok bytes) ↔
      (∀ r, p.Visits code g r → ∀ b, g.blocks[r]? = some b → b.CallsNamed g.calls) ∧
      (∀ m, left.ListsMember kept.graph p.entry m → m < d.members.size) ∧
      ∀ c, left.ListsClass d kept.graph p.entry c → c < d.classes.size) ∧
    ∀ bytes, written = .ok bytes → ∃ (n : Numbering) (img : Image), bytes = img.marshal ∧
      img = (n.image d kept.graph p.entry runId).listing
        (kept.program.reachable.map fun m => position (number n.members m)) ∧
      (img.blocks.getD []).length = kept.program.visited ∧ n.blocks.Nodup ∧
      (∀ r, r ∈ n.blocks ↔ p.Visits code g r) ∧
      (img.bodies.getD []).length = members.length ∧ members.Nodup ∧
      n.bodies.map (·.1) = members ∧ ∀ m root, (m, root) ∈ n.bodies → code.body? m = some root := by
  obtain ⟨t, h, hclean, hvisits⟩ := exists_kept hrooted hbodies hfields hok
  simp only [hclean, hvisits, reachableCode]
  refine ⟨fun r => ?_, fun r => ?_, fun m hm => ?_, ?_, ?_⟩
  · rw [h.mem_visited_iff_lists]
    constructor
    · rintro ⟨m, root, hroot, hpath⟩
      obtain ⟨hm, hbody⟩ := Registry.body?_restrict.mp hroot
      obtain ⟨listed, hwalk, -, -, hlisted⟩ := h.lists_walk hm hbody
      exact ⟨m, h.mem_order.mpr ⟨root, hroot⟩, root, listed, hbody, hwalk, (hlisted r).mpr hpath⟩
    · rintro ⟨m, hm, root, listed, hbody, hwalk, hr⟩
      have hm := (List.mem_filter.mp hm).1
      obtain ⟨listed', hwalk', -, -, hlisted⟩ := h.lists_walk hm hbody
      obtain rfl := Except.ok.inj (hwalk.symm.trans hwalk')
      exact ⟨m, root, Registry.body?_restrict.mpr ⟨hm, hbody⟩, (hlisted r).mp hr⟩
  · rw [h.mem_visited_iff_meets]
    refine and_congr_right fun _ => not_congr (and_congr_right fun _ => ?_)
    refine ⟨fun hnone m hm => hnone m (List.mem_filter.mp hm).1, fun hnone m hm hroot => ?_⟩
    exact hnone m (List.mem_filter.mpr ⟨hm, h.isCode_of_body hroot⟩) hroot
  · obtain ⟨hm, hcode⟩ := List.mem_filter.mp hm
    obtain ⟨root, -, hbody⟩ := h.body_of_isCode hm hcode
    obtain ⟨listed, hwalk, -⟩ := h.lists_walk hm hbody
    exact ⟨root, listed, hbody, hwalk⟩
  · rw [← h.complete_iff hrooted]
    constructor
    · rintro ⟨bytes, hbytes⟩
      obtain ⟨img, himg, -⟩ := Image.map_ok.mp hbytes
      exact (Image.ofProgram_ok h hrooted himg).1
    · intro hcomplete
      obtain ⟨img, himg⟩ := Image.exists_ofProgram h runId t.count hcomplete
      exact ⟨img.marshal, by rw [Image.encodeProgram, himg]; rfl⟩
  · intro bytes hbytes
    obtain ⟨img, himg, rfl⟩ := Image.map_ok.mp hbytes
    obtain ⟨-, n, hn, horder, rfl⟩ := Image.ofProgram_ok h hrooted himg
    have hblocks : ∀ r, r ∈ n.blocks ↔ r ∈ t.visited := fun r => by
      rw [hn.blocks, h.mem_visited_iff_lists]
    have hcount : n.blocks.length = t.count := by
      rw [h.sound.count, ← List.toFinset_card_of_nodup hn.blocksNodup, ← Set.ncard_coe_finset]
      congr 1
      ext r
      simp [hblocks]
    refine ⟨n, _, rfl, rfl, ?_, hn.blocksNodup, hblocks, ?_, h.sound.nodup.filter _, horder, ?_⟩
    · simpa [Image.listing, Numbering.image] using hcount
    · simpa [Image.listing, Numbering.image] using congrArg List.length horder
    · exact fun m root hmem => (Registry.body?_restrict.mp ((hn.bodies m root).mp hmem)).2

end

def loopDeclarations : Declarations where
  classes := #[⟨"Main", none⟩]
  members := #[.method 0 "main" [] (.primitive .void), .ctor 0 [],
    .field 0 "next" (.object 0), .field 0 "size" (.primitive .int)]

theorem loopCode_storePortable : loopCode.StorePortable loopDeclarations loopGraph 0 := by
  constructor <;> decide

/-- Of the five blocks of the loop, the dead leaf is not kept; the block that becomes one is. -/
theorem cleanup_agrees_loop :
    loopCode.Rooted ∧ (∀ body ∈ loopCode, loopDeclarations.isCode body.1) ∧
      loopGraph.FieldsTyped loopDeclarations ∧
      (cleanup loopCode loopGraph { entry := 0 }).failure = none ∧
      ∃ bytes img, Image.encodeProgram loopDeclarations
          (cleanup loopCode loopGraph { entry := 0 }).graph loopCode
          (cleanup loopCode loopGraph { entry := 0 }).program .zero = .ok bytes ∧
        bytes = Image.marshal img ∧ (img.blocks.getD []).length = 4 ∧
        (img.bodies.getD []).length = 2 := by
  have hrooted : loopCode.Rooted := by decide
  have hfields : loopGraph.FieldsTyped loopDeclarations := by decide
  have hok : (cleanup loopCode loopGraph { entry := 0 }).failure = none := by decide
  have hclosed := loopCode_storePortable.closed
  have hleft := closed_cleanup hclosed hrooted hfields hok
  have hcalls : ∀ c ∈ loopGraph.calls, c.callee ≠ none := by decide
  obtain ⟨-, -, -, hwritten, himage⟩ :=
    cleanup_agrees { entry := 0 } .zero hrooted hclosed.bodies hfields hok
  obtain ⟨bytes, hbytes⟩ := hwritten.mpr ⟨fun r _ b hb site _ c hc =>
    hcalls c (Array.mem_of_getElem? hc), fun m hm => hleft.member_lt hm, fun c hc =>
    hleft.class_lt hc⟩
  obtain ⟨n, img, rfl, -, hblocks, -, -, hbodies, -⟩ := himage bytes hbytes
  have hvisited : (cleanup loopCode loopGraph { entry := 0 }).program.visited = 4 := by decide
  have hmembers : ((cleanup loopCode loopGraph { entry := 0 }).program.reachableCode
      loopDeclarations).length = 2 := by decide
  exact ⟨hrooted, hclosed.bodies, hfields, hok, _, img, hbytes, rfl, hblocks.trans hvisited,
    hbodies.trans hmembers⟩

def unnamedGraph : Graph where
  blocks := #[{ id := 0, code := [.call 0], succs := [], mergeable := true }]
  calls := #[{ callee := none, targets := some [] }]

/-- A program may be cleaned up, with a block visited, and still not be written. -/
theorem cleanup_keeps_unwritten :
    Registry.Rooted [(0, some 0)] ∧
      Registry.StoreClosed loopDeclarations unnamedGraph [(0, some 0)] 0 ∧
      unnamedGraph.FieldsTyped loopDeclarations ∧
      cleanup [(0, some 0)] unnamedGraph { entry := 0 } = ⟨unnamedGraph, ⟨0, [0], 1⟩, none⟩ ∧
      Image.encodeProgram loopDeclarations unnamedGraph [(0, some 0)] ⟨0, [0], 1⟩ .zero =
        .error (.fault .absentSignature) := by
  refine ⟨by decide, ?_, by decide, by decide, ?_⟩
  · have h := loopCode_storePortable.closed
    refine ⟨h.main, by decide, by decide, h.supers, h.owners, h.types, by decide, by decide,
      by decide⟩
  · rfl

end Program

end Linkage
