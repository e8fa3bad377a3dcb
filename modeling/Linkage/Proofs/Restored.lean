import Linkage.Proofs.ClassTables
import Linkage.Proofs.Numbering
import Mathlib.Data.List.Forall2

/-!
# Programs read back

The blocks of an image are created one after another, with call sites of their own, and linked once
all are there; then the bodies are registered. What comes out of the image of a numbered program is
that program under its numbers.
-/

namespace Linkage.Image

open Relation
open Encoder (position nonempty)

-- ---------------------------------------------------------------------------
-- Classes
-- ---------------------------------------------------------------------------

/-- Classes listed with all their superclasses, no more of them than can be numbered. -/
structure WithSupers (d : Declarations) (cs : List ClassId) : Prop where
  there : ∀ c ∈ cs, ∃ k, d.classes[c]? = some k
  supers : ∀ c ∈ cs, ∀ s, d.Extends c s → s ∈ cs
  limit : cs.length < 2 ^ 63

def classRows (d : Declarations) (cs : List ClassId) : List Class :=
  cs.map fun c => classRow (number cs) (d.classAt c)

section
variable {d : Declarations} {cs : List ClassId} {c s : ClassId}

theorem WithSupers.super_mem (h : WithSupers d cs) (hc : c ∈ cs)
    (hs : (d.classAt c).super = some s) : d.Extends c s ∧ s ∈ cs := by
  obtain ⟨k, hk⟩ := h.there c hc
  rw [Declarations.classAt_eq hk] at hs
  have hext : d.Extends c s := by simp [Declarations.Extends, Declarations.superOf, hk, hs]
  exact ⟨hext, h.supers c hc s hext⟩

theorem WithSupers.toDecl_classRow (h : WithSupers d cs) (hc : c ∈ cs) :
    (classRow (number cs) (d.classAt c)).toDecl cs.length =
      ⟨(d.classAt c).name, (d.classAt c).super.map (number cs)⟩ := by
  cases hs : (d.classAt c).super with
  | none => simp [Class.toDecl, classRow, hs, reference?_zero]
  | some s =>
    have hmem := (h.super_mem hc hs).2
    simp [Class.toDecl, classRow, hs, reference?_position (number_lt hmem) h.limit]

theorem WithSupers.map_toDecl (h : WithSupers d cs) :
    (classRows d cs).map (Class.toDecl cs.length) =
      cs.map fun c => ⟨(d.classAt c).name, (d.classAt c).super.map (number cs)⟩ := by
  rw [classRows, List.map_map]
  exact List.map_congr_left fun c hc => h.toDecl_classRow hc

theorem WithSupers.extends_of_above (h : WithSupers d cs) (habove : Above (classRows d cs) i j) :
    ∃ c s, cs[i]? = some c ∧ cs[j]? = some s ∧ d.Extends c s := by
  obtain ⟨row, hrow, hsuper⟩ := habove
  rw [classRows, List.getElem?_map, Option.map_eq_some_iff] at hrow
  obtain ⟨c, hc, rfl⟩ := hrow
  have hmem := List.mem_of_getElem? hc
  have hdecl := congrArg ClassDecl.super (h.toDecl_classRow hmem)
  simp only [classRows, List.length_map] at hsuper
  simp only [Class.toDecl, hsuper] at hdecl
  obtain ⟨s, hs, rfl⟩ := Option.map_eq_some_iff.mp hdecl.symm
  obtain ⟨hext, hmem'⟩ := h.super_mem hmem hs
  exact ⟨c, s, hc, getElem?_number hmem', hext⟩

theorem WithSupers.decode_classRows (h : WithSupers d cs)
    (hname : ∀ c ∈ cs, (d.classAt c).name ≠ "")
    (hacyclic : ∀ c ∈ cs, ¬ TransGen d.Extends c c) :
    decodeClasses (classRows d cs) = .ok { classes :=
      (cs.map fun c => ⟨(d.classAt c).name, (d.classAt c).super.map (number cs)⟩).toArray } := by
  have hlength : (classRows d cs).length = cs.length := List.length_map ..
  rw [decodeClasses_eq, hlength, h.map_toDecl]
  · intro row hrow
    obtain ⟨c, hc, rfl⟩ := List.mem_map.mp hrow
    exact hname c hc
  · intro row hrow h0
    obtain ⟨c, hc, rfl⟩ := List.mem_map.mp hrow
    cases hs : (d.classAt c).super with
    | none => simp [classRow, hs] at h0
    | some s =>
      have hdecl := congrArg ClassDecl.super (h.toDecl_classRow hc)
      exact ⟨number cs s, by simpa [Class.toDecl, hlength, hs] using hdecl⟩
  · intro i hcycle
    -- a cycle of rows is a cycle of classes
    let up : Nat → ClassId := fun j => (cs[j]?).getD 0
    have hup : TransGen d.Extends (up i) (up i) := by
      refine hcycle.lift up fun j k hjk => ?_
      obtain ⟨c, s, hc, hs, hext⟩ := h.extends_of_above hjk
      show d.Extends (up j) (up k)
      simpa [up, hc, hs] using hext
    obtain ⟨j, hj, -⟩ := TransGen.head'_iff.mp hcycle
    obtain ⟨c, s, hc, -⟩ := h.extends_of_above hj
    have hi : up i = c := by simp [up, hc]
    rw [hi] at hup
    exact hacyclic c (List.mem_of_getElem? hc) hup

theorem WithSupers.above_of_extends (h : WithSupers d cs) (hc : c ∈ cs) (hext : d.Extends c s) :
    Above (classRows d cs) (number cs c) (number cs s) := by
  obtain ⟨k, hk⟩ := h.there c hc
  have hsuper : (d.classAt c).super = some s := by
    simpa [Declarations.classAt_eq hk, Declarations.Extends, Declarations.superOf, hk] using hext
  have hdecl := congrArg ClassDecl.super (h.toDecl_classRow hc)
  refine ⟨_, by rw [classRows, List.getElem?_map, getElem?_number hc]; rfl, ?_⟩
  simpa [Class.toDecl, classRows, hsuper] using hdecl

theorem WithSupers.of_decodeClasses (h : WithSupers d cs)
    (hd : decodeClasses (classRows d cs) = .ok d') :
    ∀ c ∈ cs, (d.classAt c).name ≠ "" ∧ ¬ TransGen d.Extends c c := by
  obtain ⟨-, hnames, hacyclic⟩ := decodeClasses_ok hd
  rw [extends_eq_above hd] at hacyclic
  intro c hc
  -- all classes on the way up are listed, so the way is there between their rows as well
  have hup : ∀ s, TransGen d.Extends c s →
      s ∈ cs ∧ TransGen (Above (classRows d cs)) (number cs c) (number cs s) := by
    intro s hs
    induction hs with
    | single hs => exact ⟨h.supers c hc _ hs, .single (h.above_of_extends hc hs)⟩
    | tail _ hs ih => exact ⟨h.supers _ ih.1 _ hs, ih.2.tail (h.above_of_extends ih.1 hs)⟩
  exact ⟨hnames _ (List.mem_map_of_mem hc), fun hcycle => hacyclic _ (hup c hcycle).2⟩

end

-- ---------------------------------------------------------------------------
-- Instructions in a row
-- ---------------------------------------------------------------------------

def Keeps (xs ys : Array α) : Prop := ∀ (i : Nat) a, xs[i]? = some a → ys[i]? = some a

theorem Keeps.refl (xs : Array α) : Keeps xs xs := fun _ _ h => h

theorem Keeps.trans (h : Keeps xs ys) (h' : Keeps ys zs) : Keeps xs zs :=
  fun i a ha => h' i a (h i a ha)

theorem Keeps.push (xs : Array α) (a : α) : Keeps xs (xs.push a) := by
  intro i b hb
  have hi := (Array.getElem?_eq_some_iff.mp hb).1
  rw [Array.getElem?_push_lt hi, ← hb, Array.getElem?_eq_getElem hi]

section
variable {d d' : Declarations} {κ : ClassId → Nat} {μ : MemberId → Nat} {β : BlockRef → Nat}
  {calls : Array Call}

/-- What an instruction needs of the tables to be read back from its row. -/
structure Known (d d' : Declarations) (κ : ClassId → Nat) (μ : MemberId → Nat)
    (calls : Array Call) (i : Instruction) : Prop where
  portable : i.Portable d calls
  type : ∀ c ∈ i.type.class?, κ c < d'.classes.size
  names : ∀ m, i.Names calls m → Stands d d' μ m

theorem matches_of_keeps {i i' : Instruction} (h : Keeps calls₁ calls₂)
    (hm : i.Matches κ μ calls calls₁ i') : i.Matches κ μ calls calls₂ i' := by
  cases hm with
  | plain hs => exact .plain hs
  | call hc hc' => exact .call hc (h _ _ hc')

theorem decodeInstr_row (hc : d'.classes.size < 2 ^ 63) (hs : d'.members.size < 2 ^ 63)
    {i : Instruction} (hi : Known d d' κ μ calls i) (calls₁ : Array Call) :
    ∃ i' calls₂, decodeInstr d' calls₁ (instrRow κ μ calls i).normal = .ok (i', calls₂) ∧
      Keeps calls₁ calls₂ ∧ i.Matches κ μ calls calls₂ i' := by
  cases hsite : i.site? with
  | none =>
    exact ⟨_, _, decodeInstr_plain hc hs hsite hi.portable hi.type hi.names calls₁, .refl _,
      .plain hsite⟩
  | some site =>
    obtain rfl : i = .call site := by cases i <;> simp_all [Instruction.site?]
    obtain ⟨c, hget, hcall⟩ := hi.portable.operands
    refine ⟨_, _, decodeInstr_call hs hget hcall hi.names calls₁, .push _ _, .call hget ?_⟩
    simp

theorem decodeCode_rows (hc : d'.classes.size < 2 ^ 63) (hs : d'.members.size < 2 ^ 63)
    (b i : Nat) {code : List Instruction} (h : ∀ i ∈ code, Known d d' κ μ calls i)
    (calls₁ : Array Call) :
    ∃ code' calls₂,
      decodeCode d' b i calls₁ (code.map fun i => (instrRow κ μ calls i).normal) =
        .ok (code', calls₂) ∧
      Keeps calls₁ calls₂ ∧ List.Forall₂ (Instruction.Matches κ μ calls calls₂) code code' := by
  induction code generalizing i calls₁ with
  | nil => exact ⟨[], calls₁, rfl, .refl _, .nil⟩
  | cons instr code ih =>
    obtain ⟨instr', calls₂, hinstr, hkeep, hmatch⟩ :=
      decodeInstr_row hc hs (h instr (by simp)) calls₁
    obtain ⟨code', calls₃, hcode, hkeep', hmatches⟩ :=
      ih (i + 1) (fun j hj => h j (by simp [hj])) calls₂
    -- later instructions add call sites, which leaves those of the first in place
    refine ⟨instr' :: code', calls₃, ?_, hkeep.trans hkeep',
      .cons (matches_of_keeps hkeep' hmatch) hmatches⟩
    rw [List.map_cons, decodeCode, hinstr]
    simp only [Decode.within, ok_bind, hcode]
    rfl

-- ---------------------------------------------------------------------------
-- Blocks
-- ---------------------------------------------------------------------------

/-- A block that matches another one but is not linked. -/
structure Created (κ : ClassId → Nat) (μ : MemberId → Nat) (calls calls' : Array Call)
    (b b' : Linkage.Block) : Prop where
  code : List.Forall₂ (Instruction.Matches κ μ calls calls') b.code b'.code
  mergeable : b'.mergeable = b.mergeable

theorem Created.keep (h : Keeps calls₁ calls₂) (hb : Created κ μ calls calls₁ b b') :
    Created κ μ calls calls₂ b b' :=
  ⟨hb.code.imp fun _ _ => matches_of_keeps h, hb.mergeable⟩

theorem createBlocks_rows (hc : d'.classes.size < 2 ^ 63) (hs : d'.members.size < 2 ^ 63)
    (i : Nat) (bs : List Linkage.Block) (hne : ∀ b ∈ bs, b.code ≠ [])
    (h : ∀ b ∈ bs, ∀ i ∈ b.code, Known d d' κ μ calls i) (g : Graph) :
    ∃ g' bs', createBlocks d' g i (bs.map fun b => (blockRow κ μ β calls b).normal) = (g', none) ∧
      Keeps g.calls g'.calls ∧ g'.blocks = g.blocks ++ bs'.toArray ∧
      List.Forall₂ (Created κ μ calls g'.calls) bs bs' := by
  induction bs generalizing i g with
  | nil => exact ⟨g, [], rfl, .refl _, by simp, .nil⟩
  | cons b bs ih =>
    obtain ⟨code', calls₂, hcode, hkeep, hmatch⟩ :=
      decodeCode_rows hc hs i 0 (h b (by simp)) g.calls
    have hne' : code' ≠ [] := by
      intro hnil
      have hlen := hmatch.length_eq
      exact hne b (by simp) (List.length_eq_zero_iff.mp (by simpa [hnil] using hlen))
    let b' : Linkage.Block :=
      { id := g.issued, code := code', succs := [], mergeable := b.mergeable }
    let g₁ : Graph := { blocks := g.blocks.push b', calls := calls₂, issued := g.issued + 1 }
    obtain ⟨g', bs', hrest, hkeep', hblocks, hall⟩ :=
      ih (i + 1) (fun b hb => hne b (by simp [hb])) (fun b hb => h b (by simp [hb])) g₁
    have hb' : Created κ μ calls calls₂ b b' := ⟨hmatch, rfl⟩
    refine ⟨g', b' :: bs', ?_, hkeep.trans hkeep', by simp [hblocks, g₁],
      .cons (hb'.keep hkeep') hall⟩
    have hrow : (blockRow κ μ β calls b).normal.code.getD [] =
        b.code.map fun i => (instrRow κ μ calls i).normal := by
      simp [blockRow, Block.normal]
    have hplace : Graph.orPlaceholder code' = code' := by
      cases code' with
      | nil => contradiction
      | cons => rfl
    rw [List.map_cons, createBlocks, hrow]
    split
    case h_1 hnil => exact absurd (List.map_eq_nil_iff.mp hnil) (hne b (by simp))
    case h_2 =>
      simp only [hcode, Graph.allocate, hplace]
      simpa [blockRow, Block.normal] using hrest

theorem successors_rows (hcount : count < 2 ^ 63) (i : Nat) {succs : List (Option BlockRef)}
    (h : ∀ succ ∈ succs, ∃ r, succ = some r ∧ β r < count) :
    successors count i (succs.map fun succ => position ((succ.map β).getD 0)) =
      .ok (succs.map (·.map β)) := by
  induction succs with
  | nil => rfl
  | cons succ succs ih =>
    obtain ⟨r, rfl, hr⟩ := h succ (by simp)
    have ih := ih fun succ hsucc => h succ (by simp [hsucc])
    simp only [List.map_cons, successors, Option.map_some, Option.getD_some,
      index?_position hr hcount, ih]
    rfl

def relinked (β : BlockRef → Nat) (b b' : Linkage.Block) : Linkage.Block :=
  { b' with succs := b.succs.map (·.map β) }

/-- Links the blocks from a place on. Those before it are linked already. -/
theorem linkBlocks_rows (κ : ClassId → Nat) (μ : MemberId → Nat) (calls : Array Call)
    (bs : List Linkage.Block) {bs' : List Linkage.Block} (hlen : bs.length = bs'.length) (g : Graph)
    (done : List Linkage.Block) (hg : g.blocks = (done ++ bs').toArray)
    (hcount : g.blocks.size < 2 ^ 63)
    (h : ∀ b ∈ bs, ∀ succ ∈ b.succs, ∃ r, succ = some r ∧ β r < g.blocks.size) :
    linkBlocks g done.length (bs.map fun b => (blockRow κ μ β calls b).normal) =
      .ok { g with blocks := (done ++ List.zipWith (relinked β) bs bs').toArray } := by
  induction bs generalizing bs' g done with
  | nil =>
    obtain rfl : bs' = [] := by simpa using hlen.symm
    rw [List.zipWith_nil_left, ← hg]
    rfl
  | cons b bs ih =>
    obtain ⟨b', bs', rfl⟩ : ∃ b' rest, bs' = b' :: rest := by
      cases bs' with
      | nil => simp at hlen
      | cons b' rest => exact ⟨b', rest, rfl⟩
    have hsuccs := successors_rows hcount done.length (h b (by simp))
    have hget : g.blocks[done.length]? = some b' := by simp [hg]
    have hset : (g.setBlock done.length (relinked β b b')).blocks =
        ((done ++ [relinked β b b']) ++ bs').toArray := by
      simp [Graph.setBlock, hg]
    have hsize : (g.setBlock done.length (relinked β b b')).blocks.size = g.blocks.size := by
      simp [Graph.setBlock]
    have ih := ih (by simpa using hlen) (g.setBlock done.length (relinked β b b'))
      (done ++ [relinked β b b']) hset (hsize ▸ hcount)
      (fun b hb succ hsucc => hsize ▸ h b (by simp [hb]) succ hsucc)
    have hrow : (blockRow κ μ β calls b).normal.succs.getD [] =
        b.succs.map fun succ => position ((succ.map β).getD 0) := rfl
    rw [List.map_cons, linkBlocks, hrow, hsuccs, ok_bind]
    simp only [hget]
    rw [List.length_append, List.length_singleton] at ih
    simpa [Graph.setBlock, relinked] using ih

-- ---------------------------------------------------------------------------
-- Bodies
-- ---------------------------------------------------------------------------

theorem codeMember_position (hs : d'.members.size < 2 ^ 63) (h : Stands d d' μ m)
    (hcode : d.isCode m = true) : codeMember d' (position (μ m)) = .ok (μ m) := by
  simp only [codeMember, index?_position h.1 hs, h.2, hcode]
  rfl

theorem find_append_of_none (h : code.find m = none) (more : Registry) :
    Registry.find (code ++ more) m = more.find m := by
  rw [Registry.find, List.lookup_append, show List.lookup m code = none from h]
  rfl

theorem decodeBodies_rows (hs : d'.members.size < 2 ^ 63) (hcount : count < 2 ^ 63) (i : Nat)
    {bodies : List (MemberId × BlockRef)} (hn : (bodies.map fun body => μ body.1).Nodup)
    (h : ∀ body ∈ bodies, d.isCode body.1 = true ∧ Stands d d' μ body.1 ∧ β body.2 < count)
    (code : Registry) (hfresh : ∀ body ∈ bodies, code.find (μ body.1) = none) :
    decodeBodies d' count code i (bodies.map (bodyRow μ β)) =
      .ok (code ++ bodies.map fun body => (μ body.1, some (β body.2))) := by
  induction bodies generalizing i code with
  | nil => simp [decodeBodies]
  | cons body bodies ih =>
    obtain ⟨hcode, hm, hroot⟩ := h body (by simp)
    obtain ⟨hnot, hn⟩ := List.nodup_cons.mp hn
    have hmember := codeMember_position hs hm hcode
    have hfree : (code.find (μ body.1)).isSome = false := by simp [hfresh body (by simp)]
    have ih := ih (i + 1) hn (fun b hb => h b (by simp [hb]))
      (code ++ [(μ body.1, some (β body.2))]) fun b hb => by
        rw [find_append_of_none (hfresh b (by simp [hb]))]
        have hne : μ b.1 ≠ μ body.1 := fun heq => hnot (List.mem_map.mpr ⟨b, hb, heq⟩)
        rw [Registry.find, List.lookup_cons, beq_false_of_ne hne]
        rfl
    rw [List.map_cons, decodeBodies]
    simp only [bodyRow, hmember, Decode.within, ok_bind, index?_position hroot hcount, hfree]
    simpa using ih

end

end Linkage.Image

-- ---------------------------------------------------------------------------
-- Tables
-- ---------------------------------------------------------------------------

namespace Linkage.Numbering

open Image Relation
open Image.Encoder (position nonempty)

section
variable {n : Numbering} {d : Declarations} {g : Graph} {code : Registry} {entry : MemberId}
  {runId : RunId}

def renamedClass (n : Numbering) (k : ClassDecl) : ClassDecl :=
  ⟨k.name, k.super.map (number n.classes)⟩

def declarations (n : Numbering) (d : Declarations) : Declarations where
  classes := (n.classes.map fun c => n.renamedClass (d.classAt c)).toArray
  members := (n.members.map fun m => (d.memberAt m).rename (number n.classes)).toArray

theorem Covers.withSupers (hn : n.Covers d g code entry) (hthere : code.Complete d g entry)
    (hlimit : n.classes.length < 2 ^ 63) : WithSupers d n.classes where
  there c hc := hthere.classes c ((hn.classes c).mp hc)
  supers c hc s hs := (hn.classes s).mpr (.super ((hn.classes c).mp hc) hs)
  limit := hlimit

theorem Covers.limit (hn : n.Covers d g code entry) (hp : code.Portable d g entry) :
    n.classes.length < 2 ^ 63 ∧ n.members.length < 2 ^ 63 ∧ n.blocks.length < 2 ^ 63 := by
  have hc := hn.classes_length hp
  have hm := hn.members_length hp
  have hb := hn.blocks_length hp
  unfold Cbor.maxElements at hc hm hb
  omega

theorem Covers.declarations_limit (hn : n.Covers d g code entry) (hp : code.Portable d g entry) :
    (n.declarations d).classes.size < 2 ^ 63 ∧ (n.declarations d).members.size < 2 ^ 63 := by
  have hlimit := hn.limit hp
  exact ⟨by simpa [declarations] using hlimit.1, by simpa [declarations] using hlimit.2.1⟩

theorem classes_declarations (hn : n.Covers d g code entry) (hthere : code.Complete d g entry)
    (hlimit : n.classes.length < 2 ^ 63) :
    (n.declarations d).classes = ((n.classes.map fun c =>
      classRow (number n.classes) (d.classAt c)).map (Class.toDecl n.classes.length)).toArray :=
  congrArg List.toArray (hn.withSupers hthere hlimit).map_toDecl.symm

theorem Covers.decodeClasses (hn : n.Covers d g code entry) (hp : code.Portable d g entry) :
    decodeClasses (n.classes.map fun c => classRow (number n.classes) (d.classAt c)) =
      .ok { classes := (n.declarations d).classes } := by
  have hlisted := hn.withSupers hp.complete (hn.limit hp).1
  refine hlisted.decode_classRows (fun c hc => ?_) fun c hc => ?_
  · obtain ⟨k, hk, hport⟩ := hp.classes c ((hn.classes c).mp hc)
    rw [Declarations.classAt_eq hk]
    exact hport.1
  · exact hp.acyclic c ((hn.classes c).mp hc)

theorem normal_image_classes (n : Numbering) (d : Declarations) (g : Graph) (entry : MemberId)
    (runId : RunId) :
    (n.image d g entry runId).normal.classes.getD [] =
      n.classes.map fun c => classRow (number n.classes) (d.classAt c) := by
  simp [Image.normal, image]

theorem normal_image_members (n : Numbering) (d : Declarations) (g : Graph) (entry : MemberId)
    (runId : RunId) :
    (n.image d g entry runId).normal.members.getD [] =
      (n.members.map d.memberAt).map (memberRow (number n.classes)) := by
  simp [Image.normal, image]

theorem Covers.decodeTables (hn : n.Covers d g code entry) (hp : code.Portable d g entry)
    (hid : runId.bytes.length = 16) :
    decodeTables (n.image d g entry runId).normal = .ok (runId, n.declarations d) := by
  have hrun : decodeRunId runId.text = .ok runId := by
    have hne : runId.text.isEmpty = false := by simpa using runId.text_ne_empty
    simp [decodeRunId, hne, RunId.parse_text runId hid]
  have hmembers := decodeMembers_rows (κ := number n.classes)
    { classes := (n.declarations d).classes } 0 (n.members.map d.memberAt)
    (fun k hk => by
      obtain ⟨m, hm, rfl⟩ := List.mem_map.mp hk
      obtain ⟨k, hk, hport⟩ := hp.members m ((hn.members m).mp hm)
      rwa [Declarations.memberAt_eq hk])
    (fun k hk c hc => by
      obtain ⟨m, hm, rfl⟩ := List.mem_map.mp hk
      have hlists := (hn.members m).mp hm
      obtain ⟨k, hk, -⟩ := hp.members m hlists
      rw [Declarations.memberAt_eq hk] at hc
      simpa [declarations] using hn.class_lt (hlists.mentions hk hc))
    (hn.declarations_limit hp).1
  rw [Image.decodeTables, normal_image_classes, normal_image_members]
  simp only [show (n.image d g entry runId).normal.version = currentVersion from rfl,
    show (n.image d g entry runId).normal.runId = runId.text from rfl, hrun, hn.decodeClasses hp,
    hmembers, ok_bind]
  simp [declarations]
  rfl

-- ---------------------------------------------------------------------------
-- The whole program
-- ---------------------------------------------------------------------------

theorem Covers.getElem?_classes (hn : n.Covers d g code entry)
    (hc : code.ListsClass d g entry c) :
    (n.declarations d).classes[number n.classes c]? = some (n.renamedClass (d.classAt c)) := by
  simp [declarations, getElem?_number ((hn.classes c).mpr hc)]

theorem Covers.getElem?_members (hn : n.Covers d g code entry)
    (hm : code.ListsMember g entry m) :
    (n.declarations d).members[number n.members m]? =
      some ((d.memberAt m).rename (number n.classes)) := by
  simp [declarations, getElem?_number ((hn.members m).mpr hm)]

theorem hasCode_rename (κ : ClassId → ClassId) (k : Linkage.Member) :
    (k.rename κ).hasCode = k.hasCode := by
  cases k <;> rfl

theorem Covers.stands (hn : n.Covers d g code entry) (hp : code.Portable d g entry)
    (hm : code.ListsMember g entry m) :
    Stands d (n.declarations d) (number n.members) m := by
  obtain ⟨k, hk, -⟩ := hp.members m hm
  refine ⟨by simpa [declarations] using hn.member_lt hm, ?_⟩
  simp [Declarations.isCode, hn.getElem?_members hm, hk, Declarations.memberAt_eq hk,
    hasCode_rename]

theorem Covers.known (hn : n.Covers d g code entry) (hp : code.Portable d g entry)
    (hr : code.ListsBlock g r) (hi : i ∈ (g.blockAt r).code) :
    Known d (n.declarations d) (number n.classes) (number n.members) g.calls i := by
  obtain ⟨b, hb, hport⟩ := hp.blocks r hr
  rw [Graph.blockAt_eq hb] at hi
  refine ⟨hport.code i hi, fun c hc => ?_, fun m hm => ?_⟩
  · simpa [declarations] using hn.class_lt (.body hr hb hi hc)
  · exact hn.stands hp (.named hr hb hi hm)

theorem Covers.succ_lt (hn : n.Covers d g code entry) (hthere : code.Complete d g entry)
    (hr : code.ListsBlock g r) (hs : succ ∈ (g.blockAt r).succs) :
    ∃ q, succ = some q ∧ number n.blocks q < n.blocks.length := by
  obtain ⟨b, hb, hcomplete⟩ := hthere.blocks r hr
  rw [Graph.blockAt_eq hb] at hs
  cases succ with
  | none => exact absurd hs hcomplete.succs
  | some q => exact ⟨q, rfl, hn.block_lt (hr.succ hb hs)⟩

theorem find_eq_some_iff (hn : (code.map (·.1)).Nodup) :
    code.find m = some root ↔ (m, root) ∈ code := by
  refine ⟨Registry.mem_of_find, fun h => ?_⟩
  induction code with
  | nil => simp at h
  | cons body code ih =>
    obtain ⟨hnot, hn⟩ := List.nodup_cons.mp hn
    rcases List.mem_cons.mp h with rfl | h
    · simp [Registry.find]
    · have hne : m ≠ body.1 := fun heq => hnot (List.mem_map.mpr ⟨_, h, heq⟩)
      have ih := ih hn h
      rw [Registry.find, List.lookup_cons, beq_false_of_ne hne]
      exact ih

def registry (n : Numbering) : Registry :=
  n.bodies.map fun body => (number n.members body.1, some (number n.blocks body.2))

theorem Covers.registry_keys (hn : n.Covers d g code entry) :
    (n.registry.map (·.1)).Nodup := by
  have hmap : n.registry.map (·.1) = (n.bodies.map (·.1)).map (number n.members) := by
    simp [registry]
  rw [hmap]
  refine hn.bodiesNodup.map_on fun m hm m' hm' heq => ?_
  obtain ⟨⟨m, r⟩, hbody, rfl⟩ := List.mem_map.mp hm
  have hfind := Registry.body?_eq_some.mp ((hn.bodies m r).mp hbody)
  exact (number_inj ((hn.members m).mpr (.body (by simp [hfind])))).mp heq

theorem Covers.find_registry (hn : n.Covers d g code entry) (hp : code.Portable d g entry)
    (m' : MemberId) (root' : Option BlockRef) :
    n.registry.find m' = some root' ↔
      ∃ m root, code.find m = some root ∧ number n.members m = m' ∧
        root.map (number n.blocks) = root' := by
  rw [find_eq_some_iff hn.registry_keys]
  constructor
  · intro h
    obtain ⟨⟨m, r⟩, hbody, heq⟩ := List.mem_map.mp h
    obtain ⟨rfl, rfl⟩ := Prod.mk.inj heq
    exact ⟨m, some r, Registry.body?_eq_some.mp ((hn.bodies m r).mp hbody), rfl, rfl⟩
  · rintro ⟨m, root, hfind, rfl, rfl⟩
    cases root with
    | none => exact absurd hfind hp.rooted.find_ne
    | some r =>
      have hbody := (hn.bodies m r).mpr (Registry.body?_eq_some.mpr hfind)
      exact List.mem_map.mpr ⟨(m, r), hbody, rfl⟩

theorem Covers.decodeBodies (hn : n.Covers d g code entry) (hp : code.Portable d g entry) :
    decodeBodies (n.declarations d) n.blocks.length [] 0
        (n.bodies.map (bodyRow (number n.members) (number n.blocks))) = .ok n.registry := by
  have hkeys : (n.bodies.map fun body => number n.members body.1).Nodup := by
    have hkeys := hn.registry_keys
    rwa [registry, List.map_map] at hkeys
  refine decodeBodies_rows (d := d) (hn.declarations_limit hp).2 (hn.limit hp).2.2 0 hkeys ?_ []
    fun _ _ => rfl
  rintro ⟨m, r⟩ hbody
  have hbody := (hn.bodies m r).mp hbody
  have hfind := Registry.body?_eq_some.mp hbody
  exact ⟨hp.bodies _ (Registry.mem_of_find hfind), hn.stands hp (.body (by simp [hfind])),
    hn.block_lt ⟨m, r, hbody, .refl⟩⟩

def unit (n : Numbering) (d : Declarations) (g : Graph) (entry : MemberId) (runId : RunId)
    (g' : Graph) (bs' : List Linkage.Block) : LinkUnit where
  runId := runId
  linked := false
  declarations := n.declarations d
  graph := { g' with
    blocks := (List.zipWith (relinked (number n.blocks)) (n.blocks.map g.blockAt) bs').toArray }
  entry := number n.members entry
  code := n.registry
  reachable := []

theorem normal_image_blocks (n : Numbering) (d : Declarations) (g : Graph) (entry : MemberId)
    (runId : RunId) :
    (n.image d g entry runId).normal.blocks.getD [] =
      (n.blocks.map g.blockAt).map fun b => (blockRow (number n.classes) (number n.members)
        (number n.blocks) g.calls b).normal := by
  simp [Image.normal, image]

theorem normal_image_bodies (n : Numbering) (d : Declarations) (g : Graph) (entry : MemberId)
    (runId : RunId) :
    (n.image d g entry runId).normal.bodies.getD [] =
      n.bodies.map (bodyRow (number n.members) (number n.blocks)) := by
  simp [Image.normal, image]

theorem Covers.decodeRest (hn : n.Covers d g code entry) (hp : code.Portable d g entry)
    (runId : RunId) {g' : Graph} {bs' : List Linkage.Block} (hg : g'.blocks = bs'.toArray)
    (hlen : n.blocks.length = bs'.length) :
    decodeRest (n.image d g entry runId).normal runId (n.declarations d) g' =
      .ok (n.unit d g entry runId g' bs') := by
  have hsize : g'.blocks.size = n.blocks.length := by simp [hg, hlen]
  have hlink := linkBlocks_rows (number n.classes) (number n.members) g.calls
    (n.blocks.map g.blockAt) (by simpa using hlen) g' [] hg (hsize ▸ (hn.limit hp).2.2)
    (fun b hb succ hsucc => by
      obtain ⟨r, hr, rfl⟩ := List.mem_map.mp hb
      exact hsize ▸ hn.succ_lt hp.complete ((hn.blocks r).mp hr) hsucc)
  have hmain := codeMember_position (hn.declarations_limit hp).2 (hn.stands hp .entry) hp.main
  have hbodies := hn.decodeBodies hp
  have hcount : (List.zipWith (relinked (number n.blocks)) (n.blocks.map g.blockAt)
      bs').toArray.size = n.blocks.length := by
    simp [hlen]
  simp only [List.length_nil, List.nil_append] at hlink
  rw [Image.decodeRest, normal_image_blocks, hlink, ok_bind, normal_image_bodies]
  have hentry : (n.image d g entry runId).normal.entry = position (number n.members entry) := rfl
  simp only [hentry, hmain, Decode.within, ok_bind, hcount, hbodies]
  rfl

theorem Covers.restores (hn : n.Covers d g code entry) (hp : code.Portable d g entry) {g' : Graph}
    {bs' : List Linkage.Block}
    (h : List.Forall₂ (Created (number n.classes) (number n.members) g.calls g'.calls)
      (n.blocks.map g.blockAt) bs') :
    (n.unit d g entry runId g' bs').Restores (number n.classes) (number n.members)
      (number n.blocks) d g code entry where
  classNumbers := number_bijOn hn.classesNodup hn.classes (by simp [unit, declarations])
  memberNumbers := number_bijOn hn.membersNodup hn.members (by simp [unit, declarations])
  blockNumbers := number_bijOn hn.blocksNodup hn.blocks <| by
    have hlen : n.blocks.length = bs'.length := by simpa using h.length_eq
    simp [unit, hlen]
  main := rfl
  registry := hn.find_registry hp
  classes c k hc hk := by
    rw [← Declarations.classAt_eq hk]
    exact hn.getElem?_classes hc
  members m k hm hk := by
    rw [← Declarations.memberAt_eq hk]
    exact hn.getElem?_members hm
  blocks r b hr hb := by
    have hmem := (hn.blocks r).mpr hr
    have hget : (n.blocks.map g.blockAt)[number n.blocks r]? = some b := by
      rw [List.getElem?_map, getElem?_number hmem, Option.map_some, Graph.blockAt_eq hb]
    obtain ⟨hi, hib⟩ := List.getElem?_eq_some_iff.mp hget
    have hi' : number n.blocks r < bs'.length := h.length_eq ▸ hi
    have hcreated : Created (number n.classes) (number n.members) g.calls g'.calls b
        (bs'.get ⟨_, hi'⟩) := hib ▸ h.get hi hi'
    refine ⟨relinked (number n.blocks) b (bs'.get ⟨_, hi'⟩), ?_,
      ⟨hcreated.code, rfl, hcreated.mergeable⟩⟩
    simp only [unit, List.getElem?_toArray]
    exact List.getElem?_zipWith_eq_some.mpr ⟨b, _, hget, List.getElem?_eq_getElem hi', rfl⟩

theorem Covers.decode_unit (hn : n.Covers d g code entry) (hp : code.Portable d g entry)
    (hid : runId.bytes.length = 16) (issued : Nat) :
    ∃ g' bs', (n.image d g entry runId).normal.decode issued =
        (.ok (n.unit d g entry runId g' bs'), g'.issued) ∧
      List.Forall₂ (Created (number n.classes) (number n.members) g.calls g'.calls)
        (n.blocks.map g.blockAt) bs' := by
  obtain ⟨hclasses, hmembers⟩ := hn.declarations_limit hp
  obtain ⟨g', bs', hcreate, -, hblocks, hall⟩ := createBlocks_rows (β := number n.blocks) hclasses
    hmembers 0 (n.blocks.map g.blockAt)
    (fun b hb => by
      obtain ⟨r, hr, rfl⟩ := List.mem_map.mp hb
      obtain ⟨b, hget, hport⟩ := hp.blocks r ((hn.blocks r).mp hr)
      rw [Graph.blockAt_eq hget]
      exact hport.nonempty)
    (fun b hb i hi => by
      obtain ⟨r, hr, rfl⟩ := List.mem_map.mp hb
      exact hn.known hp ((hn.blocks r).mp hr) hi)
    { issued }
  have hg : g'.blocks = bs'.toArray := by simpa using hblocks
  have hrest := hn.decodeRest hp runId hg (by simpa using hall.length_eq)
  refine ⟨g', bs', ?_, hall⟩
  rw [Image.decode, hn.decodeTables hp hid, normal_image_blocks]
  simp only [hcreate, hrest]

/-- The image of a portable program is read back as that program, whatever identities its blocks
are given. -/
theorem Covers.decode (hn : n.Covers d g code entry) (hp : code.Portable d g entry)
    (hid : runId.bytes.length = 16) (issued : Nat) :
    ∃ u next, (n.image d g entry runId).normal.decode issued = (.ok u, next) ∧
      u.runId = runId ∧ u.linked = false ∧ u.reachable = [] ∧
      u.Restores (number n.classes) (number n.members) (number n.blocks) d g code entry := by
  obtain ⟨g', bs', hdecode, hall⟩ := hn.decode_unit hp hid issued
  exact ⟨n.unit d g entry runId g' bs', g'.issued, hdecode, rfl, rfl, rfl, hn.restores hp hall⟩

end

end Linkage.Numbering
