import Linkage.Command.Run
import Linkage.Proofs.LinkedImage
import Linkage.Proofs.Reading

/-!
# Units that were read are safe

Whatever bytes a unit is read from, linking it ends. It fails for a body or a target that the
program lacks, or it gives an image that can be read again. Printing the unit ends as well, but the
instructions that are listed by their type have to carry one, which reading does not ask for.
-/

namespace Linkage

-- ---------------------------------------------------------------------------
-- Linking
-- ---------------------------------------------------------------------------

/-- What a program may lack, as opposed to what may be broken in its graph. -/
def DefectKind.IsLack : DefectKind → Bool
  | .noEntry | .missingCode _ | .unresolvedCall => true
  | .nilSuccessor | .emptyBlock => false

section
variable {d : Declarations} {g : Graph} {code : Registry} {entry : MemberId} {u : LinkUnit}
  {runId : RunId} {bytes : List UInt8}

theorem Registry.Portable.isLack (hp : code.Portable d g entry) (hr : code.ListsBlock g r)
    (hb : g.blocks[r]? = some b) (hf : b.Flaw code g.calls kind who) : kind.IsLack = true := by
  obtain ⟨b', hb', hport⟩ := hp.blocks r hr
  obtain rfl := Option.some.inj (hb'.symm.trans hb)
  cases hf with
  | empty hempty => exact absurd hempty hport.nonempty
  | nilSuccessor hnil => exact absurd hnil hport.succs
  | unresolved | missing => rfl

/-- A portable program can be linked, or else there is something that it lacks. -/
theorem Registry.Portable.create_or_lack (hp : code.Portable d g entry) :
    (∃ p g', Program.create code g (some entry) = (.ok p, g')) ∨
      ∃ defect g', Program.create code g (some entry) = (.error (.defect defect), g') ∧
        defect.kind.IsLack = true := by
  rw [Program.create_some]
  cases hroot : code.body? entry with
  | none => exact .inr ⟨_, _, by rw [Program.cleanup_of_none hroot], rfl⟩
  | some root =>
    obtain ⟨o, hends, hblames⟩ := hp.exists_ends hroot
    cases o with
    | ok t => exact .inl ⟨_, _, by rw [(Program.cleanup_of_ends hroot hends).1]⟩
    | error e =>
      obtain ⟨s, m, r, b, kind, who, -, hmeets, hb, hflaw, -, rfl⟩ := hblames e rfl
      refine .inr ⟨⟨kind, who, some r⟩, _, by rw [Program.failure_of_ends hroot hends], ?_⟩
      exact hp.isLack (lists_of_meets hmeets) hb hflaw

theorem Registry.Portable.decode_linked {p : Program} {g' : Graph} (hp : code.Portable d g entry)
    (hid : runId.bytes.length = 16)
    (hcreate : Program.create code g (some entry) = (.ok p, g')) :
    ∃ bytes, Image.encodeProgram d g' code p runId = .ok bytes ∧
      ∀ issued, ∃ u, (LinkUnit.decode bytes issued).1 = .ok u := by
  obtain ⟨root, t, count, rfl, -, -, ht⟩ := Program.exists_finished hp hcreate
  obtain ⟨n, hn, himage⟩ := Image.ofProgram_eq ht count runId
  refine ⟨_, by rw [Image.encodeProgram, himage]; rfl, fun issued => ?_⟩
  obtain ⟨u, next, hdecode, -⟩ := hn.decode_listing ht.portable_restrict hid ht.sound.nodup
    (fun m hm => ht.listsMember hm) issued
  exact ⟨u, by rw [hdecode]⟩

/-- Linking a unit that was read, from any of its members, ends with an image that can be read or
with something that the program lacks. No bytes in memory are as many as 2^63. -/
theorem LinkUnit.link_decoded (hbytes : bytes.length < 2 ^ 63) (hid : runId.bytes.length = 16)
    (hu : (LinkUnit.decode bytes issued).1 = .ok u) (hentry : entry ∈ u.entry :: u.code.map (·.1)) :
    (∃ defect g', Program.create u.code u.graph (some entry) = (.error (.defect defect), g') ∧
      defect.kind.IsLack = true) ∨
    ∃ p g' linked, Program.create u.code u.graph (some entry) = (.ok p, g') ∧
      Image.encodeProgram u.declarations g' u.code p runId = .ok linked ∧
      ∀ issued, ∃ u', (LinkUnit.decode linked issued).1 = .ok u' := by
  obtain ⟨img, himg, hread⟩ := Image.exists_readFrom hu
  have hp := hread.portable (Image.bounded_of_unmarshal himg) hbytes (hread.isCode hentry)
  rcases hp.create_or_lack with ⟨p, g', hcreate⟩ | hlack
  · obtain ⟨linked, hlinked, hagain⟩ := hp.decode_linked hid hcreate
    exact .inr ⟨p, g', linked, hcreate, hlinked, hagain⟩
  · exact .inl hlack

end

def negator (type : String) : Image where
  version := 1
  classes := some [{ name := "Main" }]
  members := some [{ kind := 2, name := "main", type := "void" },
    { kind := 2, name := "negate", type := "void" }]
  blocks := some [
    { code := some [{ op := 19, member := 2, targets := some [2], resolved := true }],
      succs := some [1] },
    { code := some [{ op := 17 }] },
    { code := some [{ op := 6, type }] }]
  bodies := some [{}, { member := 1, root := 2 }]

def negatorUnit (t : Ty) : LinkUnit where
  runId := .zero
  linked := false
  declarations := {
    classes := #[⟨"Main", none⟩]
    members := #[.method 0 "main" [] (.primitive .void), .method 0 "negate" [] (.primitive .void)] }
  graph := {
    blocks := #[{ id := 0, code := [.call 0], succs := [some 1], mergeable := true },
      { id := 1, code := [.ret .absent], succs := [], mergeable := true },
      { id := 2, code := [.neg t], succs := [], mergeable := true }]
    calls := #[{ callee := some 1, targets := some [some 1] }]
    issued := 3 }
  entry := 0
  code := [(0, some 0), (1, some 2)]
  reachable := []

theorem decode_negator_untyped :
    (LinkUnit.decode (negator "").marshal 0).1 = .ok (negatorUnit .absent) := by
  decide +kernel

theorem LinkUnit.link_decoded_negator :
    (negator "").marshal.length < 2 ^ 63 ∧ RunId.zero.bytes.length = 16 ∧
      (LinkUnit.decode (negator "").marshal 0).1 = .ok (negatorUnit .absent) ∧
      1 ∈ (negatorUnit .absent).entry :: (negatorUnit .absent).code.map (·.1) ∧
      ∃ p g' linked,
        Program.create (negatorUnit .absent).code (negatorUnit .absent).graph (some 1) =
          (.ok p, g') ∧
        Image.encodeProgram (negatorUnit .absent).declarations g' (negatorUnit .absent).code p
          .zero = .ok linked ∧
        ∀ issued, ∃ u', (LinkUnit.decode linked issued).1 = .ok u' := by
  have hlength : (negator "").marshal.length < 2 ^ 63 := by decide +kernel
  have hid : RunId.zero.bytes.length = 16 := by decide
  have hentry : 1 ∈ (negatorUnit .absent).entry :: (negatorUnit .absent).code.map (·.1) := by decide
  have hcreate : (Program.create (negatorUnit .absent).code (negatorUnit .absent).graph
      (some 1)).1 = .ok ⟨1, [1], 1⟩ := by decide
  refine ⟨hlength, hid, decode_negator_untyped, hentry, ?_⟩
  refine (LinkUnit.link_decoded hlength hid decode_negator_untyped hentry).resolve_left ?_
  rintro ⟨defect, g', hfail, -⟩
  rw [hfail] at hcreate
  cases hcreate

-- ---------------------------------------------------------------------------
-- Printing
-- ---------------------------------------------------------------------------

/-- Fails, and in this way only, exactly if the condition holds. -/
structure FailsIf (P : Prop) (e : ε) (x : Except ε α) : Prop where
  fails : P → x = .error e
  gives : ¬ P → ∃ a, x = .ok a

section
variable {P Q : Prop} {e : ε} {x : Except ε α} {f : α → Except ε β}

theorem failsIf_ok (hP : ¬ P) (h : ∃ a, x = .ok a) : FailsIf P e x :=
  ⟨fun hp => absurd hp hP, fun _ => h⟩

theorem exists_map_ok (h : ∃ a, x = .ok a) (f : α → β) : ∃ b, x.map f = .ok b := by
  obtain ⟨a, rfl⟩ := h
  exact ⟨f a, rfl⟩

theorem FailsIf.congr (h : FailsIf P e x) (hPQ : P ↔ Q) : FailsIf Q e x :=
  ⟨fun hq => h.fails (hPQ.mpr hq), fun hq => h.gives fun hp => hq (hPQ.mp hp)⟩

theorem FailsIf.bind (h : FailsIf P e x) (hf : ∀ a, ∃ b, f a = .ok b) :
    FailsIf P e (x >>= f) where
  fails hp := by
    rw [h.fails hp]
    rfl
  gives hp := by
    obtain ⟨a, ha⟩ := h.gives hp
    rw [ha]
    exact hf a

theorem FailsIf.mapM {P : α → Prop} {xs : List α} (h : ∀ a ∈ xs, FailsIf (P a) e (f a)) :
    FailsIf (∃ a ∈ xs, P a) e (xs.mapM f) := by
  induction xs with
  | nil => exact failsIf_ok (by simp) ⟨[], rfl⟩
  | cons a xs ih =>
    have ha := h a (by simp)
    have ih := ih fun b hb => h b (by simp [hb])
    rw [List.mapM_cons]
    by_cases hP : P a
    · refine ⟨fun _ => by rw [ha.fails hP]; rfl, fun hnone => ?_⟩
      exact absurd ⟨a, by simp, hP⟩ hnone
    · obtain ⟨b, hb⟩ := ha.gives hP
      rw [hb]
      refine (ih.bind fun bs => ⟨b :: bs, rfl⟩).congr ?_
      simp [hP]

end

/-- An instruction that a listing shows by its type, and that carries none. -/
def Instruction.LacksType : Instruction → Prop
  | .neg t | .dup t | .pop t | .newArray t | .arrayLoad t | .arrayStore t => t = .absent
  | _ => False

section
variable {d : Declarations} {t : Ty}

theorem Ty.Over.typeName_ok (ht : t.Over d.classes.size) : ∃ name, d.typeName t = .ok name :=
  Declarations.typeName_ok ht.1 fun c hc => ⟨_, Array.getElem?_eq_getElem (ht.2 c hc)⟩

theorem Declarations.typeName_failsIf (ht : t = .absent ∨ t.Over d.classes.size)
    (f : String → String) : FailsIf (t = .absent) .absent ((d.typeName t).map f) := by
  rcases ht with rfl | ht
  · exact ⟨fun _ => rfl, fun h => absurd rfl h⟩
  · have hne : t ≠ .absent := by
      rintro rfl
      cases ht.1
    exact failsIf_ok hne (exists_map_ok ht.typeName_ok f)

theorem Cond.name_unary {c : Cond} (h : c.isUnary = true) : ∃ name, c.name = .ok name := by
  have hlt : c.code.toNat < Cond.names.length := by
    have hle : c.code.toNat ≤ 1 := by simpa [isUnary, UInt8.le_iff_toNat_le] using h
    exact Nat.lt_of_le_of_lt hle (by decide)
  exact ⟨_, by simp [name, nameAt, List.getElem?_eq_getElem hlt]; rfl⟩

variable {calls : Array Call} {i : Image.Instr} {x : Instruction}

theorem Call.name_ok {c : Call} (hc : Image.callOf d i = .ok c)
    (hsigned : ∀ m < d.members.size, ∃ name, d.signature m = .ok name) :
    ∃ name, c.name d = .ok name := by
  obtain ⟨⟨callee, hcallee, hcode⟩, htargets, -⟩ := Image.callOf_ok hc
  obtain ⟨name, hname⟩ := hsigned callee (Declarations.lt_of_isCode hcode)
  have hnames : ∀ target ∈ c.targetList, ∃ name, d.signatureOf target = .ok name := by
    intro target ht
    obtain ⟨m, rfl, hcode⟩ := htargets target ht
    exact hsigned m (Declarations.lt_of_isCode hcode)
  obtain ⟨names, hnames⟩ := Image.exists_mapM.mpr hnames
  obtain ⟨callee', targets⟩ := c
  obtain rfl : callee' = some callee := hcallee
  replace hname : d.signatureOf (some callee) = .ok name := hname
  cases targets with
  | none => exact ⟨_, by rw [Call.name, hname]; rfl⟩
  | some targets =>
    replace hnames : targets.mapM d.signatureOf = .ok names := hnames
    exact ⟨_, by simp only [Call.name, hname, hnames]; rfl⟩

/-- The type of an instruction may be absent, and some instructions cannot be shown then. All else
that the line of an instruction names is there. -/
theorem Image.Instr.ReadAs.name_failsIf (h : i.ReadAs d calls x)
    (hsigned : ∀ m < d.members.size, ∃ name, d.signature m = .ok name) :
    FailsIf x.LacksType .absent (x.name d calls) := by
  have hover := h.over
  have hoperands := h.operands
  cases x with
  | nop | const | load | store | arith | not | compare => exact failsIf_ok id ⟨_, rfl⟩
  | neg t | dup t | pop t | newArray t | arrayLoad t | arrayStore t =>
    exact Declarations.typeName_failsIf hover _
  | new c =>
    have hclass : ∃ name, d.typeName (.object c) = .ok name :=
      (hover.resolve_left (by simp [Instruction.type])).typeName_ok
    exact failsIf_ok id (exists_map_ok hclass _)
  | getField m | putField m => exact failsIf_ok id (exists_map_ok (hsigned m hoperands.1) _)
  | ret t =>
    refine failsIf_ok id ?_
    rw [Instruction.name]
    split
    · exact ⟨_, rfl⟩
    · rename_i hnone
      exact exists_map_ok (hover.resolve_left fun habsent => hnone (.inl habsent)).typeName_ok _
  | guard c t =>
    refine failsIf_ok id ?_
    rw [Instruction.name]
    split
    · rename_i hunary
      exact exists_map_ok (Cond.name_unary hunary) _
    · exact ⟨_, rfl⟩
  | call site =>
    obtain ⟨c, hget, hc⟩ := hoperands
    refine failsIf_ok id ?_
    rw [Instruction.name, hget]
    exact Call.name_ok hc hsigned

end

def LinkUnit.ListsUntyped (u : LinkUnit) : Prop :=
  ∃ r b, u.code.ListsBlock u.graph r ∧ u.graph.blocks[r]? = some b ∧ ∃ x ∈ b.code, x.LacksType

namespace Image.ReadFrom

open Command (dumpBlock dumpBody dumpUnit)

section
variable {img : Image} {u : LinkUnit} {r root : BlockRef} {b : Linkage.Block} {m : MemberId}

theorem signature_ok (h : img.ReadFrom u) (hm : m < u.declarations.members.size) :
    ∃ name, u.declarations.signature m = .ok name := by
  have hmem := Array.getElem_mem hm
  have hclosed := h.closed h.main
  refine Declarations.signature_ok (Array.getElem?_eq_getElem hm) ?_ ?_
  · rintro c (rfl | ⟨t, ht, hc⟩)
    · exact ⟨_, Array.getElem?_eq_getElem (hclosed.owners _ hmem)⟩
    · exact ⟨_, Array.getElem?_eq_getElem (hclosed.types _ hmem t ht c hc)⟩
  · intro t ht
    obtain ⟨row, -, hrow⟩ := h.member hmem
    obtain ⟨s, -, hs⟩ := hrow.types t ht
    exact hs.over.1

theorem dumpBlock_failsIf (h : img.ReadFrom u) (hb : u.graph.blocks[r]? = some b) :
    FailsIf (∃ x ∈ b.code, x.LacksType) .absent (dumpBlock u r) := by
  have hmem := Array.mem_of_getElem? hb
  have hlines : FailsIf (∃ x ∈ b.code, x.LacksType) .absent
      (b.code.mapM (Instruction.name u.declarations u.graph.calls)) := by
    refine .mapM fun x hx => ?_
    obtain ⟨i, hi⟩ := h.instruction hmem hx
    exact hi.name_failsIf fun m hm => h.signature_ok hm
  rw [dumpBlock, Graph.dump, hb]
  refine FailsIf.bind (hlines.bind fun lines => ⟨_, rfl⟩) fun text => ?_
  refine exists_bind_ok.mpr ((exists_mapM.mpr ?_).imp fun ids hids => ⟨hids, _, rfl⟩)
  intro succ hsucc
  obtain ⟨row, -, hrow⟩ := h.block hmem
  obtain ⟨q, rfl, hq⟩ := hrow.succs succ hsucc
  simp [Array.getElem?_eq_getElem hq]

theorem dumpBody_failsIf (h : img.ReadFrom u) (hroot : u.code.body? m = some root) :
    FailsIf (∃ r b, u.graph.Reaches root r ∧ u.graph.blocks[r]? = some b ∧
      ∃ x ∈ b.code, x.LacksType) .absent (dumpBody u m) := by
  have hlt : ∀ r, u.graph.Reaches root r → r < u.graph.blocks.size := fun r hr =>
    (h.closed h.main).block_lt ⟨m, root, hroot, hr⟩
  obtain ⟨listed, hwalk, -, -, hlisted⟩ := Graph.lists_walk hlt
  have hblocks : FailsIf (∃ r ∈ listed, ∃ b, u.graph.blocks[r]? = some b ∧
      ∃ x ∈ b.code, x.LacksType) .absent (listed.mapM (dumpBlock u)) := by
    refine .mapM fun r hr => ?_
    have hb := Array.getElem?_eq_getElem (hlt r ((hlisted r).mp hr))
    refine (h.dumpBlock_failsIf hb).congr ?_
    simp [hb]
  rw [dumpBody, hroot, hwalk, ok_bind]
  refine (hblocks.bind fun texts => ⟨_, rfl⟩).congr ?_
  simp only [hlisted, exists_and_left]

theorem dumpUnit_failsIf (h : img.ReadFrom u) : FailsIf u.ListsUntyped .absent (dumpUnit u) := by
  obtain ⟨order, horder⟩ := Registry.ordered_ok u.entry fun m hm =>
    h.signature_ok (Declarations.lt_of_isCode (h.isCode (List.mem_cons_of_mem _ hm)))
  have hperm := Registry.ordered_perm h.bodies.keys horder
  have hmem : ∀ m, m ∈ order ↔ ∃ root, u.code.body? m = some root := fun m => by
    rw [hperm.mem_iff, ← Registry.find_isSome, h.rooted.find_isSome]
  have hbodies : FailsIf (∃ m ∈ order, ∃ root, u.code.body? m = some root ∧
      ∃ r b, u.graph.Reaches root r ∧ u.graph.blocks[r]? = some b ∧ ∃ x ∈ b.code, x.LacksType)
      .absent (order.mapM (dumpBody u)) := by
    refine .mapM fun m hm => ?_
    obtain ⟨root, hroot⟩ := (hmem m).mp hm
    refine (h.dumpBody_failsIf hroot).congr ?_
    simp [hroot]
  rw [dumpUnit, horder, ok_bind]
  refine (hbodies.bind fun texts => ⟨_, rfl⟩).congr ?_
  constructor
  · rintro ⟨m, -, root, hroot, r, b, hreach, hb, hx⟩
    exact ⟨r, b, ⟨m, root, hroot, hreach⟩, hb, hx⟩
  · rintro ⟨r, b, ⟨m, root, hroot, hreach⟩, hb, hx⟩
    exact ⟨m, (hmem m).mpr ⟨root, hroot⟩, root, hroot, r, b, hreach, hb, hx⟩

end

end Image.ReadFrom

/-- A unit that was read can be printed unless an instruction of a body lacks the type it is shown
by, and then it cannot. Nothing else can go wrong. -/
theorem LinkUnit.dump_decoded {bytes : List UInt8} {u : LinkUnit}
    (hu : (LinkUnit.decode bytes issued).1 = .ok u) :
    (¬ u.ListsUntyped → ∃ text, Command.dumpUnit u = .ok text) ∧
      (u.ListsUntyped → Command.dumpUnit u = .error .absent) := by
  obtain ⟨img, -, hread⟩ := Image.exists_readFrom hu
  exact ⟨hread.dumpUnit_failsIf.gives, hread.dumpUnit_failsIf.fails⟩

theorem LinkUnit.dump_decoded_negator :
    (LinkUnit.decode (negator "").marshal 0).1 = .ok (negatorUnit .absent) ∧
      (negatorUnit .absent).ListsUntyped ∧
      Command.dumpUnit (negatorUnit .absent) = .error .absent ∧
      (LinkUnit.decode (negator "int").marshal 0).1 = .ok (negatorUnit (.primitive .int)) ∧
      ¬ (negatorUnit (.primitive .int)).ListsUntyped ∧
      ∃ text, Command.dumpUnit (negatorUnit (.primitive .int)) = .ok text := by
  have huntyped : (negatorUnit .absent).ListsUntyped :=
    ⟨2, _, ⟨1, 2, rfl, .refl⟩, rfl, .neg .absent, .head _, rfl⟩
  have htyped : ¬ (negatorUnit (.primitive .int)).ListsUntyped := by
    rintro ⟨r, b, -, hb, x, hx, hlacks⟩
    have hmem := Array.mem_of_getElem? hb
    simp only [negatorUnit, List.mem_toArray, List.mem_cons, List.not_mem_nil, or_false] at hmem
    rcases hmem with rfl | rfl | rfl
    all_goals
      obtain rfl := List.mem_singleton.mp hx
      cases hlacks
  have hdecode : (LinkUnit.decode (negator "int").marshal 0).1 =
      .ok (negatorUnit (.primitive .int)) := by
    decide +kernel
  exact ⟨decode_negator_untyped, huntyped,
    (LinkUnit.dump_decoded decode_negator_untyped).2 huntyped, hdecode, htyped,
    (LinkUnit.dump_decoded hdecode).1 htyped⟩

/-- Not every unit that was read can be printed: an untyped negation cannot. -/
theorem LinkUnit.dump_decoded_fails :
    ¬ ∀ bytes issued u, (LinkUnit.decode bytes issued).1 = .ok u →
      ∃ text, Command.dumpUnit u = .ok text := by
  intro h
  obtain ⟨text, htext⟩ := h (negator "").marshal 0 _ decode_negator_untyped
  have hfault : Command.dumpUnit (negatorUnit .absent) = .error .absent := by decide
  rw [hfault] at htext
  cases htext

end Linkage
