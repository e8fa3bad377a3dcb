import Linkage.Proofs.Placing
import Linkage.Proofs.Walk

/-!
# Writing bodies

The encoder writes the blocks of one body after another, each block once, and the members and
classes it meets on the way. At the end the tables hold what the program consists of and nothing
else, so the image is that of a numbered program.
-/

namespace Linkage.Image.Encoder

-- ---------------------------------------------------------------------------
-- Instructions
-- ---------------------------------------------------------------------------

/-- The row of an instruction, in every numbering that agrees with the tables so far. -/
structure Written (calls : Array Call) (i : Instruction) (row : Instr) (s : Encoder) : Prop where
  row : ∀ κ μ, Agrees κ s.classIds → Agrees μ s.memberIds → row = instrRow κ μ calls i
  type : ∀ c ∈ i.type.class?, c ∈ s.classIds
  names : ∀ m, i.Names calls m → m ∈ s.memberIds
  complete : i.Complete calls

section
variable {E : Prop} {d : Declarations} {C : Set ClassId} {M : Set MemberId} {calls : Array Call}
  {s s' s'' : Encoder}

theorem Written.mono {row : Instr} (h : Written calls i row s) (hgrows : Grows d C M s s') :
    Written calls i row s' :=
  ⟨fun κ μ hκ hμ => h.row κ μ (hκ.mono hgrows.classIds) (hμ.mono hgrows.memberIds),
    fun c hc => hgrows.classIds.subset (h.type c hc),
    fun m hm => hgrows.memberIds.subset (h.names m hm), h.complete⟩

theorem typed_yields (hd : Placeable E d C M) (h : Tables d C M s) (i : Instruction)
    (hi : ∀ c ∈ i.type.class?, c ∈ C) (f : String → Instr)
    (hf : ∀ κ μ, instrRow κ μ calls i = f (i.type.spelling κ)) (hnames : ∀ m, ¬ i.Names calls m)
    (hcomplete : i.Complete calls) :
    Yields E (placeType d i.type >>= fun text => pure (f text)) s fun row s' =>
      Step d C M s s' ∧ Written calls i row s' := by
  refine .bind (placeType_yields hd h hi) ?_
  rintro text s' ⟨hstep, hspelled⟩
  refine .pure ⟨hstep.step, fun κ μ hκ _ => ?_, hspelled.2, fun m hm => absurd hm (hnames m),
    hcomplete⟩
  rw [hf, hspelled.1 κ hκ]

theorem reference_yields (hd : Placeable E d C M) (h : Tables d C M s) {m : Option MemberId}
    (hnone : m = none → E) (hm : ∀ x ∈ m, x ∈ M) :
    Yields E (reference d m) s fun row s' => Step d C M s s' ∧
      (∃ x, m = some x ∧ x ∈ s'.memberIds) ∧
      ∀ μ, Agrees μ s'.memberIds → row = referenceRow μ m := by
  cases m with
  | none => exact .fail (hnone rfl)
  | some m =>
    refine .bind (placeMember_yields hd h (hm m rfl)) ?_
    rintro i s' ⟨hstep, hi⟩
    refine .pure ⟨hstep, ⟨m, rfl, List.mem_of_getElem? hi⟩, fun μ hμ => ?_⟩
    rw [← hμ i m hi]
    rfl

theorem references_yields (hd : Placeable E d C M) (h : Tables d C M s)
    {ms : List (Option MemberId)} (hnone : none ∈ ms → E) (hms : ∀ m, some m ∈ ms → m ∈ M) :
    Yields E (ms.mapM (reference d)) s fun rows s' => Step d C M s s' ∧
      (∀ target ∈ ms, ∃ m, target = some m ∧ m ∈ s'.memberIds) ∧
      ∀ μ, Agrees μ s'.memberIds → rows = ms.map (referenceRow μ) := by
  refine (yields_mapM (R := Step d C M) (I := Tables d C M)
    (Q := fun target row s => (∃ m, target = some m ∧ m ∈ s.memberIds) ∧
      ∀ μ, Agrees μ s.memberIds → row = referenceRow μ target)
    (fun _ => .refl) (fun _ _ _ => .trans) (fun _ _ hs => hs.tables) ?_ ?_ h).mono ?_
  · rintro target row s s' ⟨⟨m, hm, hmem⟩, hrow⟩ hstep
    exact ⟨⟨m, hm, hstep.memberIds.subset hmem⟩, fun μ hμ => hrow μ (hμ.mono hstep.memberIds)⟩
  · intro target ht s h
    exact reference_yields hd h (fun heq => hnone (heq ▸ ht)) fun m hm => hms m (hm ▸ ht)
  · rintro rows s' ⟨hstep, hall⟩
    refine ⟨hstep, fun target ht => ?_,
      fun μ hμ => eq_map_of_forall₂ hall fun t row ht => ht.2 μ hμ⟩
    obtain ⟨row, -, hrow⟩ := exists_of_forall₂ hall ht
    exact hrow.1

theorem callEntry_yields (hd : Placeable E d C M) (h : Tables d C M s)
    (hi : ¬ (Instruction.call site).Complete calls → E)
    (hM : ∀ m, (Instruction.call site).Names calls m → m ∈ M) :
    Yields E (instrEntry d calls (.call site)) s fun row s' =>
      Step d C M s s' ∧ Written calls (.call site) row s' := by
  cases hc : calls[site]? with
  | none =>
    simp only [instrEntry, hc]
    exact .fail (hi fun ⟨c, hc', _⟩ => by simp [hc] at hc')
  | some c =>
    have hnone : none ∈ c.callee :: c.targetList → E := by
      refine fun hnone => hi ?_
      rintro ⟨c', hc', hno⟩
      obtain rfl := Option.some.inj (hc.symm.trans hc')
      exact hno hnone
    simp only [instrEntry, hc]
    refine .bind (reference_yields hd h (fun heq => hnone (by simp [heq]))
      fun m hm => hM m (.callee hc hm)) ?_
    rintro row s₁ ⟨hstep₁, ⟨m, hm, hmem⟩, hrow⟩
    refine .bind (references_yields hd hstep₁.tables (fun hmem => hnone (by simp [hmem]))
      fun m hm => hM m (.target hc hm)) ?_
    rintro rows s₂ ⟨hstep₂, hmems, hrows⟩
    refine .pure ⟨hstep₁.trans hstep₂, fun κ μ _ hμ => ?_, by simp [Instruction.type, Ty.class?],
      ?_, c, hc, ?_⟩
    · rw [hrow μ (hμ.mono hstep₂.memberIds), hrows μ hμ]
      simp [instrRow, callRow, Array.getD_eq_getD_getElem?, hc]
    · rintro x (_ | _ | ⟨hc', hx⟩ | ⟨hc', hx⟩)
      · obtain rfl := Option.some.inj (hc.symm.trans hc')
        obtain rfl := Option.some.inj (hm.symm.trans hx)
        exact hstep₂.memberIds.subset hmem
      · obtain rfl := Option.some.inj (hc.symm.trans hc')
        obtain ⟨m', heq, hmem'⟩ := hmems _ hx
        obtain rfl := Option.some.inj heq
        exact hmem'
    · intro hmem
      rcases List.mem_cons.mp hmem with heq | hmem
      · cases heq.trans hm
      · obtain ⟨m', heq, -⟩ := hmems _ hmem
        cases heq

theorem fieldEntry_yields (hd : Placeable E d C M) (h : Tables d C M s) (hm : m ∈ M)
    (i : Instruction) (f : Int64 → Instr)
    (hf : ∀ κ μ, instrRow κ μ calls i = f (referenceRow μ (some m)))
    (htype : i.type.class? = none) (hnames : ∀ x, i.Names calls x → x = m)
    (hcomplete : i.Complete calls) :
    Yields E (reference d (some m) >>= fun row => pure (f row)) s fun row s' =>
      Step d C M s s' ∧ Written calls i row s' := by
  refine .bind (reference_yields hd h (by simp) (by simpa using hm)) ?_
  rintro row s' ⟨hstep, ⟨x, hx, hmem⟩, hrow⟩
  obtain rfl := Option.some.inj hx
  refine .pure ⟨hstep, fun κ μ _ hμ => ?_, by simp [htype], fun x hx => hnames x hx ▸ hmem,
    hcomplete⟩
  rw [hf, hrow μ hμ]

theorem instrEntry_yields (hd : Placeable E d C M) (h : Tables d C M s) {i : Instruction}
    (hi : ¬ i.Complete calls → E) (hC : ∀ c ∈ i.type.class?, c ∈ C)
    (hM : ∀ m, i.Names calls m → m ∈ M) :
    Yields E (instrEntry d calls i) s fun row s' => Step d C M s s' ∧ Written calls i row s' := by
  cases i with
  | nop =>
    exact .pure ⟨.refl h, fun _ _ _ _ => rfl, by simp [Instruction.type, Ty.class?],
      by rintro _ ⟨⟩, trivial⟩
  | not =>
    exact .pure ⟨.refl h, fun _ _ _ _ => rfl, by simp [Instruction.type, Ty.class?],
      by rintro _ ⟨⟩, trivial⟩
  | getField m =>
    exact fieldEntry_yields hd h (hM m .get) (.getField m) _ (fun _ _ => rfl) rfl
      (by rintro _ ⟨⟩; rfl) trivial
  | putField m =>
    exact fieldEntry_yields hd h (hM m .put) (.putField m) _ (fun _ _ => rfl) rfl
      (by rintro _ ⟨⟩; rfl) trivial
  | call site => exact callEntry_yields hd h hi hM
  | _ => exact typed_yields hd h _ hC _ (fun _ _ => rfl) (by rintro _ ⟨⟩) trivial

end

-- ---------------------------------------------------------------------------
-- Positions of blocks
-- ---------------------------------------------------------------------------

structure Positioned (g : Graph) (bs : List BlockRef) (s : Encoder) : Prop where
  size : s.positions.size = g.blocks.size
  nodup : bs.Nodup
  place : ∀ r (i : Nat), (s.positions[r]?).join = some i ↔ bs[i]? = some r

section
variable {g : Graph} {bs fresh listed : List BlockRef} {s s' : Encoder} {r root : BlockRef}

theorem Positioned.start (g : Graph) : Positioned g [] (start g) where
  size := by simp [Encoder.start]
  nodup := .nil
  place r i := by
    simp only [Encoder.start, Array.getElem?_replicate]
    split <;> simp

theorem Positioned.of_positions (h : Positioned g bs s) (heq : s'.positions = s.positions) :
    Positioned g bs s' :=
  ⟨heq ▸ h.size, h.nodup, heq ▸ h.place⟩

theorem Positioned.isPlaced (h : Positioned g bs s) : s.isPlaced r = true ↔ r ∈ bs := by
  rw [Encoder.isPlaced, Option.isSome_iff_exists]
  simp only [h.place, List.mem_iff_getElem?]

theorem Positioned.placeBlock (h : Positioned g bs s) (hr : r ∉ bs) (hlt : r < g.blocks.size) :
    Positioned g (bs ++ [r]) (s.placeBlock r bs.length) where
  size := by simp [Encoder.placeBlock, h.size]
  nodup := by simpa using h.nodup.concat hr
  place q i := by
    have hlast : (bs ++ [r])[i]? = some q ↔ bs[i]? = some q ∨ bs.length = i ∧ r = q := by
      grind
    rw [hlast]
    by_cases hq : r = q
    · subst hq
      have hno : bs[i]? ≠ some r := fun hi => hr (List.mem_of_getElem? hi)
      simp [Encoder.placeBlock, h.size, hlt, hno]
    · simp [Encoder.placeBlock, hq, h.place]

theorem Positioned.placeBlocks (h : Positioned g bs s) (hn : fresh.Nodup)
    (hnew : ∀ r ∈ fresh, r ∉ bs) (hlt : ∀ r ∈ fresh, r < g.blocks.size) :
    Positioned g (bs ++ fresh) (placeBlocks fresh bs.length s) := by
  induction fresh generalizing bs s with
  | nil => simpa [Encoder.placeBlocks] using h
  | cons r rest ih =>
    have hplaced := h.placeBlock (hnew r (by simp)) (hlt r (by simp))
    have hrest := ih hplaced (List.nodup_cons.mp hn).2 ?_ fun q hq => hlt q (by simp [hq])
    · simpa [Encoder.placeBlocks] using hrest
    · intro q hq
      rw [List.mem_append, List.mem_singleton, not_or]
      exact ⟨hnew q (by simp [hq]), fun h => (List.nodup_cons.mp hn).1 (h ▸ hq)⟩

theorem Positioned.unplaced (h : Positioned g bs s) (hroot : root ∉ bs) (hn : listed.Nodup)
    (hfirst : listed.head? = some root) (hlisted : ∀ r, r ∈ listed ↔ g.Reaches root r)
    (hfresh : listed.filter (fun r => !s.isPlaced r) = fresh) :
    fresh.Nodup ∧ fresh.head? = some root ∧ ∀ r, r ∈ fresh ↔ g.Reaches root r ∧ r ∉ bs := by
  subst hfresh
  refine ⟨hn.filter _, ?_, fun r => ?_⟩
  · obtain ⟨rest, rfl⟩ := List.head?_eq_some_iff.mp hfirst
    have hplaced : s.isPlaced root = false := by
      simpa [← h.isPlaced] using hroot
    simp [hplaced]
  · rw [List.mem_filter, hlisted, ← h.isPlaced]
    simp

theorem placeBlocks_eq (fresh : List BlockRef) (n : Nat) (s : Encoder) :
    placeBlocks fresh n s = { s with positions := (placeBlocks fresh n s).positions } := by
  induction fresh generalizing n s with
  | nil => rfl
  | cons r rest ih => exact ih (n + 1) (s.placeBlock r n)

end

-- ---------------------------------------------------------------------------
-- Blocks
-- ---------------------------------------------------------------------------

structure BlockWritten (g : Graph) (bs : List BlockRef) (s : Encoder) (r : BlockRef) (row : Block) :
    Prop where
  row : ∀ κ μ β, Agrees κ s.classIds → Agrees μ s.memberIds → Agrees β bs →
    row = blockRow κ μ β g.calls (g.blockAt r)
  types : ∀ i ∈ (g.blockAt r).code, ∀ c ∈ i.type.class?, c ∈ s.classIds
  names : ∀ i ∈ (g.blockAt r).code, ∀ m, i.Names g.calls m → m ∈ s.memberIds
  there : ∃ b, g.blocks[r]? = some b ∧ b.Complete g.calls

/-- The blocks that may be written: all are there, with their successors and calls, unless `E`, and
name only classes and members that may be placed. -/
structure Writable (E : Prop) (d : Declarations) (g : Graph) (C : Set ClassId) (M : Set MemberId)
    (B : Set BlockRef) : Prop where
  blocks : ∀ r ∈ B, g.blocks[r]? = none → E
  complete : ∀ r ∈ B, ∀ b, g.blocks[r]? = some b → ¬ b.Complete g.calls → E
  edges : ∀ r ∈ B, ∀ q, g.Edge r q → q ∈ B
  types : ∀ r ∈ B, ∀ b, g.blocks[r]? = some b → ∀ i ∈ b.code, ∀ c ∈ i.type.class?, c ∈ C
  names : ∀ r ∈ B, ∀ b, g.blocks[r]? = some b → ∀ i ∈ b.code, ∀ m, i.Names g.calls m → m ∈ M

section
variable {E : Prop} {d : Declarations} {g : Graph} {C : Set ClassId} {M : Set MemberId}
  {B : Set BlockRef} {b : Linkage.Block}
  {bs bs' rs : List BlockRef} {s s' : Encoder} {r : BlockRef} {owner : MemberId} {id : Nat}

theorem BlockWritten.mono {row : Block} (h : BlockWritten g bs s r row) (hbs : bs <+: bs')
    (hgrows : Grows d C M s s') : BlockWritten g bs' s' r row :=
  ⟨fun κ μ β hκ hμ hβ =>
      h.row κ μ β (hκ.mono hgrows.classIds) (hμ.mono hgrows.memberIds) (hβ.mono hbs),
    fun i hi c hc => hgrows.classIds.subset (h.types i hi c hc),
    fun i hi m hm => hgrows.memberIds.subset (h.names i hi m hm), h.there⟩

/-- All successors have positions, so a block is refused for one that is missing only. -/
theorem successors_yields (h : Positioned g bs s) {succs : List (Option BlockRef)}
    (hnone : none ∈ succs → E) (hsuccs : ∀ q, some q ∈ succs → q ∈ bs) :
    Yields E (succs.mapM fun succ =>
      match succ.bind fun r => (s.positions[r]?).join with
      | some n => (pure (position n) : Encode Int64)
      | none => throw (.nilSuccessor owner id)) s fun rows s' => s' = s ∧ none ∉ succs ∧
        ∀ β, Agrees β bs → rows = succs.map fun succ => position ((succ.map β).getD 0) := by
  refine (yields_mapM (R := fun _ s' => s' = s) (I := fun s' => s' = s)
    (Q := fun (succ : Option BlockRef) row _ => succ ≠ none ∧ ∀ β, Agrees β bs →
      row = position ((succ.map β).getD 0))
    (fun _ h => h) (fun _ _ _ _ h => h) (fun _ _ h => h) (fun _ _ _ _ h _ => h) ?_ rfl).mono ?_
  · rintro (_ | q) hmem s₁ rfl
    · exact .fail (hnone hmem)
    · obtain ⟨i, hi⟩ := List.mem_iff_getElem?.mp (hsuccs q hmem)
      simp only [Option.bind_some, (h.place q i).mpr hi]
      refine .pure ⟨rfl, by simp, fun β hβ => ?_⟩
      rw [Option.map_some, Option.getD_some, hβ i q hi]
  · rintro rows s₁ ⟨rfl, hall⟩
    refine ⟨rfl, fun hmem => ?_,
      fun β hβ => eq_map_of_forall₂ hall fun succ row hrow => hrow.2 β hβ⟩
    obtain ⟨row, -, hrow⟩ := exists_of_forall₂ hall hmem
    exact hrow.1 rfl

theorem blockEntry_yields (hd : Placeable E d C M) (hB : Writable E d g C M B) (h : Tables d C M s)
    (hp : Positioned g bs s) (hr : r ∈ B) (hb : g.blocks[r]? = some b)
    (hclosed : ∀ q, g.Edge r q → q ∈ bs) :
    Yields E (blockEntry d g owner b) s fun row s' =>
      Step d C M s s' ∧ BlockWritten g bs s' r row := by
  refine .get (.bind (successors_yields hp (fun hnone => hB.complete r hr b hb fun hc => ?_)
    fun q hq => hclosed q ⟨b, hb, hq⟩) ?_)
  · exact hc.succs hnone
  rintro succs _ ⟨rfl, hnone, hrow⟩
  refine .bind (yields_mapM (R := Step d C M) (I := Tables d C M) (Q := Written g.calls)
    (fun _ => .refl) (fun _ _ _ => .trans) (fun _ _ hs => hs.tables)
    (fun _ _ _ _ hw hs => hw.mono hs.toGrows)
    (fun i hi s h => instrEntry_yields hd h
      (fun hno => hB.complete r hr b hb fun hc => hno (hc.code i hi)) (hB.types r hr b hb i hi)
      (hB.names r hr b hb i hi)) h) ?_
  rintro rows s' ⟨hstep, hall⟩
  have hwritten : ∀ i ∈ b.code, ∃ row, Written g.calls i row s' := by
    intro i hi
    obtain ⟨row, -, hw⟩ := exists_of_forall₂ hall hi
    exact ⟨row, hw⟩
  rw [← Graph.blockAt_eq hb] at hrow hall
  refine .pure ⟨hstep, fun κ μ β hκ hμ hβ => ?_, fun i hi => ?_, fun i hi => ?_, b, hb, hnone,
    fun i hi => ?_⟩
  · rw [blockRow, hrow β hβ, eq_map_of_forall₂ hall fun i row hw => hw.row κ μ hκ hμ,
      Graph.blockAt_eq hb]
  · obtain ⟨row, hw⟩ := hwritten i (Graph.blockAt_eq hb ▸ hi)
    exact hw.type
  · obtain ⟨row, hw⟩ := hwritten i (Graph.blockAt_eq hb ▸ hi)
    exact hw.names
  · obtain ⟨row, hw⟩ := hwritten i hi
    exact hw.complete

/-- The rows of blocks are added one by one; positions stay as they are. -/
theorem writeBlocks_yields (hd : Placeable E d C M) (hB : Writable E d g C M B) (h : Tables d C M s)
    (hp : Positioned g bs s) (hrs : ∀ r ∈ rs, r ∈ B)
    (hclosed : ∀ r ∈ rs, ∀ q, g.Edge r q → q ∈ bs) :
    Yields E (writeBlocks d g owner rs) s fun _ s' =>
      Grows d C M s s' ∧ s'.positions = s.positions ∧
        ∃ rows, s'.blocks.toList = s.blocks.toList ++ rows ∧
          List.Forall₂ (BlockWritten g bs s') rs rows := by
  induction rs generalizing s with
  | nil => exact .pure ⟨⟨h, List.prefix_rfl, List.prefix_rfl⟩, rfl, [], by simp, .nil⟩
  | cons r rest ih =>
    rw [writeBlocks]
    cases hb : g.blocks[r]? with
    | none => exact .fail (hB.blocks r (hrs r (by simp)) hb)
    | some b => ?_
    refine .bind (blockEntry_yields hd hB h hp (hrs r (by simp)) hb (hclosed r (by simp))) ?_
    rintro row s₁ ⟨hstep, hwritten⟩
    have hgrows : Grows d C M s { s₁ with blocks := s₁.blocks.push row } :=
      ⟨hstep.tables.withBlocks _ _, hstep.classIds, hstep.memberIds⟩
    refine .modify ((ih hgrows.tables (hp.of_positions hstep.positions)
      (fun q hq => hrs q (by simp [hq])) fun q hq => hclosed q (by simp [hq])).mono ?_)
    rintro - s₂ ⟨hgrows', hpos, rows, hrows, hall⟩
    have hlater : Grows d C M s₁ s₂ := ⟨hgrows'.tables, hgrows'.classIds, hgrows'.memberIds⟩
    refine ⟨hgrows.trans hgrows', hpos.trans hstep.positions, row :: rows, ?_,
      .cons (hwritten.mono List.prefix_rfl hlater) hall⟩
    rw [hrows, Array.toList_push, hstep.blocks, List.append_assoc, List.singleton_append]

end

-- ---------------------------------------------------------------------------
-- Bodies
-- ---------------------------------------------------------------------------

/-- What holds between bodies: the blocks with positions are written, and so are all blocks that
they lead to. -/
structure Laid (d : Declarations) (g : Graph) (C : Set ClassId) (M : Set MemberId)
    (B : Set BlockRef) (bs : List BlockRef) (s : Encoder) : Prop where
  tables : Tables d C M s
  positioned : Positioned g bs s
  rows : List.Forall₂ (BlockWritten g bs s) bs s.blocks.toList
  blocksIn : ∀ r ∈ bs, r ∈ B
  closed : ∀ r ∈ bs, ∀ q, g.Edge r q → q ∈ bs

section
variable {E : Prop} {d : Declarations} {g : Graph} {C : Set ClassId} {M : Set MemberId}
  {B : Set BlockRef} {bs : List BlockRef} {s s' : Encoder} {root : BlockRef} {owner : MemberId}

theorem Laid.start (d : Declarations) (g : Graph) (C : Set ClassId) (M : Set MemberId)
    (B : Set BlockRef) : Laid d g C M B [] (start g) where
  tables := by constructor <;> simp [Encoder.start]
  positioned := .start g
  rows := .nil
  blocksIn := by simp
  closed := by simp

theorem Laid.step (h : Laid d g C M B bs s) (hstep : Step d C M s s') : Laid d g C M B bs s' where
  tables := hstep.tables
  positioned := h.positioned.of_positions hstep.positions
  rows := by
    rw [hstep.blocks]
    exact h.rows.imp fun _ _ hw => hw.mono List.prefix_rfl hstep.toGrows
  blocksIn := h.blocksIn
  closed := h.closed

theorem Writable.reaches (hB : Writable E d g C M B) (hroot : root ∈ B)
    (h : g.Reaches root r) : r ∈ B := by
  induction h with
  | refl => exact hroot
  | tail _ hedge ih => exact hB.edges _ ih _ hedge

theorem Laid.blocks_size (h : Laid d g C M B bs s) : s.blocks.size = bs.length := by
  rw [← Array.length_toList, h.rows.length_eq]

/-- What a new body adds: its blocks that have no position yet, the root first. -/
theorem Laid.write (hd : Placeable E d C M) (hB : Writable E d g C M B) (h : Laid d g C M B bs s)
    (hn : fresh.Nodup) (hnew : ∀ r ∈ fresh, r ∉ bs) (hlt : ∀ r ∈ fresh, r < g.blocks.size)
    (hin : ∀ r ∈ fresh, r ∈ B)
    (hclosed : ∀ r ∈ fresh, ∀ q, g.Edge r q → q ∈ bs ++ fresh) :
    Yields E (writeBlocks d g owner fresh) (placeBlocks fresh s.blocks.size s) fun _ s' =>
      Grows d C M s s' ∧ Laid d g C M B (bs ++ fresh) s' := by
  have hpositioned := h.positioned.placeBlocks hn hnew hlt
  rw [h.blocks_size]
  have heq := placeBlocks_eq fresh bs.length s
  have htables : Tables d C M (placeBlocks fresh bs.length s) := heq ▸ h.tables.withBlocks _ _
  refine (writeBlocks_yields hd hB htables hpositioned hin hclosed).mono ?_
  rintro - s' ⟨hgrows, hpos, rows, hrows, hall⟩
  rw [heq] at hgrows hrows
  have hgrows : Grows d C M s s' := ⟨hgrows.tables, hgrows.classIds, hgrows.memberIds⟩
  refine ⟨hgrows, hgrows.tables, hpositioned.of_positions hpos, ?_,
    List.forall_mem_append.mpr ⟨h.blocksIn, hin⟩, List.forall_mem_append.mpr ⟨?_, hclosed⟩⟩
  · rw [hrows]
    exact List.rel_append (h.rows.imp fun _ _ hw => hw.mono (List.prefix_append _ _) hgrows) hall
  · exact fun r hr q hq => List.mem_append_left _ (h.closed r hr q hq)

theorem placeGraph_yields (hd : Placeable E d C M) (hB : Writable E d g C M B)
    (h : Laid d g C M B bs s) (hroot : root ∈ B) :
    Yields E (placeGraph d g owner root) s fun n s' => ∃ bs', bs <+: bs' ∧ bs'[n]? = some root ∧
      Grows d C M s s' ∧ Laid d g C M B bs' s' := by
  rw [placeGraph]
  refine .get ?_
  split
  · rename_i n hpos
    have hplace := (h.positioned.place root n).mp (by rw [hpos]; rfl)
    exact .pure ⟨bs, List.prefix_rfl, hplace, ⟨h.tables, List.prefix_rfl, List.prefix_rfl⟩, h⟩
  · rename_i hpos
    have hroot' : root ∉ bs := by
      intro hmem
      obtain ⟨i, hi⟩ := List.mem_iff_getElem?.mp hmem
      exact hpos i (Option.join_eq_some_iff.mp ((h.positioned.place root i).mpr hi))
    rcases g.lists_or_strays root with
      ⟨⟨listed, hwalk, hn, hfirst, hlisted⟩, hlt⟩ | ⟨⟨f, hwalk⟩, r, hr, hnone⟩
    case inr =>
      simp only [hwalk]
      exact .fail (hB.blocks r (hB.reaches hroot hr) hnone)
    obtain ⟨fresh, hfresh⟩ : ∃ fresh, listed.filter (fun r => !s.isPlaced r) = fresh := ⟨_, rfl⟩
    obtain ⟨hnodup, hhead, hmem⟩ := h.positioned.unplaced hroot' hn hfirst hlisted hfresh
    -- a body may run into blocks of an earlier one; these have their positions and are not new
    have hclosed : ∀ r ∈ fresh, ∀ q, g.Edge r q → q ∈ bs ++ fresh := by
      intro r hr q hq
      by_cases hold : q ∈ bs
      · exact List.mem_append_left _ hold
      · exact List.mem_append_right _ ((hmem q).mpr ⟨((hmem r).mp hr).1.tail hq, hold⟩)
    simp only [hwalk]
    refine .get ?_
    rw [hfresh]
    refine .set (.bind (h.write hd hB hnodup (fun r hr => ((hmem r).mp hr).2)
      (fun r hr => hlt r ((hmem r).mp hr).1) (fun r hr => hB.reaches hroot ((hmem r).mp hr).1)
      hclosed) ?_)
    rintro - s' ⟨hgrows, hlaid⟩
    refine .pure ⟨bs ++ fresh, List.prefix_append _ _, ?_, hgrows, hlaid⟩
    rw [h.blocks_size, List.getElem?_append_right (Nat.le_refl _), Nat.sub_self,
      ← List.head?_eq_getElem?, hhead]

theorem placeBodies_yields {code : Registry} {bodies : List (MemberId × BlockRef)}
    (hd : Placeable E d C M) (hB : Writable E d g C M B) (h : Laid d g C M B bs s)
    (hbodies : ∀ m root, (m, root) ∈ bodies → m ∈ M ∧ ((code.body? m = some root ∧ root ∈ B) ∨
      (code.body? m = none ∧ E))) :
    Yields E (placeBodies d g code (bodies.map (·.1))) s fun rows s' => ∃ bs', bs <+: bs' ∧
      Grows d C M s s' ∧ Laid d g C M B bs' s' ∧
      (∀ m root, (m, root) ∈ bodies → code.body? m = some root ∧ m ∈ s'.memberIds ∧ root ∈ bs') ∧
      ∀ μ β, Agrees μ s'.memberIds → Agrees β bs' → rows = bodies.map (bodyRow μ β) := by
  induction bodies generalizing bs s with
  | nil =>
    exact .pure ⟨bs, List.prefix_rfl, ⟨h.tables, List.prefix_rfl, List.prefix_rfl⟩, h, by simp,
      fun _ _ _ _ => rfl⟩
  | cons body rest ih =>
    obtain ⟨m, root⟩ := body
    obtain ⟨hm, ⟨hbody, hroot⟩ | ⟨hnone, hE⟩⟩ := hbodies m root (by simp)
    case inr =>
      simp only [List.map_cons, placeBodies, hnone]
      exact .fail hE
    simp only [List.map_cons, placeBodies, hbody]
    refine .bind (placeGraph_yields hd hB h hroot) ?_
    rintro n s₁ ⟨bs₁, hpre₁, hn, hgrows₁, hlaid₁⟩
    refine .bind (placeMember_yields hd hlaid₁.tables hm) ?_
    rintro i s₂ ⟨hstep₂, hi⟩
    refine .bind (ih (hlaid₁.step hstep₂) fun m' root' hmem => hbodies m' root' (by simp [hmem])) ?_
    rintro rows s₃ ⟨bs₃, hpre₃, hgrows₃, hlaid₃, hplaced, hrows⟩
    -- the row of this body was written before the others, but positions do not change any more
    refine .pure ⟨bs₃, hpre₁.trans hpre₃, (hgrows₁.trans hstep₂.toGrows).trans hgrows₃, hlaid₃,
      ?_, fun μ β hμ hβ => ?_⟩
    · intro m' root' hmem
      rcases List.mem_cons.mp hmem with heq | hmem
      · obtain ⟨rfl, rfl⟩ := Prod.mk.inj heq
        exact ⟨hbody, hgrows₃.memberIds.subset (List.mem_of_getElem? hi),
          hpre₃.subset (List.mem_of_getElem? hn)⟩
      · exact hplaced m' root' hmem
    · rw [hrows μ β hμ hβ, bodyRow, hμ.mono hgrows₃.memberIds i m hi,
        hβ.mono hpre₃ n root hn]

end

end Linkage.Image.Encoder
