import Linkage.Proofs.Accepted
import Linkage.Proofs.ReadLimits
import Linkage.Proofs.Restored

/-!
# Units read from images

What a unit consists of that was read from an image. Each reader is taken the other way round: what
it gives is related to the row that it was given, row by row for a whole table. From that follows
all that later passes rely on without looking: that everything referred to is there, and that the
unit can be written again.
-/

namespace Linkage

def Ty.Over (count : Nat) (t : Ty) : Prop := t.isWellFormed ∧ ∀ c ∈ t.class?, c < count

namespace Image

-- ---------------------------------------------------------------------------
-- Types and members
-- ---------------------------------------------------------------------------

section
variable {count i : Nat} {text : List Char} {s : String} {t : Ty}

theorem Denotes.over (h : Denotes count text t) : t.Over count := by
  induction h with
  | primitive hp => exact ⟨by simpa [Ty.isWellFormed] using hp, by simp [Ty.class?]⟩
  | object _ hlow hhigh =>
    refine ⟨rfl, fun c hc => ?_⟩
    obtain rfl := Option.some.inj hc
    exact (Int.toNat_lt hlow).mpr hhigh
  | array _ ih => exact ih

theorem Denotes.depth_le (h : Denotes count text t) : t.depth ≤ text.length := by
  induction h with
  | primitive => exact Nat.zero_le _
  | object => exact Nat.zero_le _
  | array _ ih => exact Nat.succ_le_succ ih

theorem Denotes.portable (h : Denotes count s.toList t) (hs : s.utf8ByteSize < 2 ^ 63) :
    t.Portable :=
  ⟨h.over.1, Nat.lt_of_le_of_lt (h.depth_le.trans (Utf8.length_le_utf8ByteSize s)) hs⟩

theorem paramsOf_ok {texts : List String} {ts : List Ty} (h : paramsOf count i texts = .ok ts) :
    List.Forall₂ (fun s t => Denotes count s.toList t) texts ts := by
  induction texts generalizing i ts with
  | nil =>
    obtain rfl := Except.ok.inj h
    exact .nil
  | cons s texts ih =>
    obtain ⟨t, ht, h⟩ := bind_ok.mp h
    cases t with
    | absent => cases h
    | _ =>
      obtain ⟨rest, hrest, h⟩ := bind_ok.mp h
      obtain rfl := pure_ok.mp h
      exact .cons ((typeOf_ok.mp ht).resolve_left (by simp)) (ih hrest)

theorem requiredType_ok {reason : Malformed} (h : requiredType count reason s = .ok t) :
    Denotes count s.toList t := by
  rw [requiredType] at h
  split at h
  · cases h
  · cases h
  · rename_i t' hne ht
    obtain rfl := Except.ok.inj h
    exact (typeOf_ok.mp ht).resolve_left fun habsent => hne habsent.2

structure Member.ReadAs (count : Nat) (m : Member) (k : Linkage.Member) : Prop where
  owner : k.owner < count
  name : k.name = m.name ∨ k.name = ""
  params : k.params.length ≤ (m.params.getD []).length
  types : ∀ t ∈ k.types, ∃ s ∈ m.type :: m.params.getD [], Denotes count s.toList t
  read : ∃ i, decodeMember count i m = .ok k

theorem readAs_of_decodeMember {m : Member} {k : Linkage.Member}
    (h : decodeMember count i m = .ok k) : m.ReadAs count k := by
  have hread : ∃ i, decodeMember count i m = .ok k := ⟨i, h⟩
  obtain ⟨owner, params, howner, hparams, h⟩ := decodeMember_ok.mp h
  have hlt := (index?_eq_some.mp howner).2
  have hall := paramsOf_ok hparams
  have htypes : ∀ t ∈ params, ∃ s ∈ m.type :: m.params.getD [], Denotes count s.toList t := by
    intro t ht
    obtain ⟨s, hs, hd⟩ := exists_of_forall₂ hall.flip ht
    exact ⟨s, List.mem_cons_of_mem _ hs, hd⟩
  rcases h with ⟨-, t, ht, rfl⟩ | ⟨-, t, ht, rfl⟩ | ⟨-, rfl⟩
  · refine ⟨hlt, .inl rfl, Nat.zero_le _, List.forall_mem_singleton.mpr ?_, hread⟩
    exact ⟨m.type, List.mem_cons_self, requiredType_ok ht⟩
  · refine ⟨hlt, .inl rfl, hall.length_eq.ge, List.forall_mem_cons.mpr ⟨?_, htypes⟩, hread⟩
    exact ⟨m.type, List.mem_cons_self, requiredType_ok ht⟩
  · exact ⟨hlt, .inr rfl, hall.length_eq.ge, htypes, hread⟩

end

-- ---------------------------------------------------------------------------
-- Instructions
-- ---------------------------------------------------------------------------

section
variable {d : Declarations} {calls calls' : Array Call} {n : Int64} {i : Instr}

theorem fieldReference_ok (h : fieldReference d n = .ok m) :
    m < d.members.size ∧ d.isCode m = false := by
  rw [fieldReference] at h
  split at h
  · cases h
  · rename_i k hk
    split at h
    · cases h
    · rename_i hcode
      obtain rfl := Except.ok.inj h
      exact ⟨reference?_lt hk, by simpa using hcode⟩

theorem callReference_ok (h : callReference d n = .ok m) : d.isCode m = true := by
  rw [callReference] at h
  split at h
  · cases h
  · split at h
    · rename_i hcode
      obtain rfl := Except.ok.inj h
      exact hcode
    · cases h

theorem callOf_ok (h : callOf d i = .ok c) :
    (∃ m, c.callee = some m ∧ d.isCode m = true) ∧
      (∀ target ∈ c.targetList, ∃ m, target = some m ∧ d.isCode m = true) ∧
      c.targetList.length ≤ (i.targets.getD []).length := by
  obtain ⟨callee, hcallee, h⟩ := bind_ok.mp h
  dsimp only at h
  split at h
  · obtain ⟨ms, hms, h⟩ := bind_ok.mp h
    obtain rfl := pure_ok.mp h
    have hall := forall₂_of_mapM hms
    refine ⟨⟨callee, rfl, callReference_ok hcallee⟩, fun target ht => ?_, ?_⟩
    · obtain ⟨m, hm, rfl⟩ := List.mem_map.mp ht
      obtain ⟨n, -, hn⟩ := exists_of_forall₂ hall.flip hm
      exact ⟨m, rfl, callReference_ok hn⟩
    · simp [Call.targetList, hall.length_eq]
  · split at h
    · obtain rfl := pure_ok.mp h
      exact ⟨⟨callee, rfl, callReference_ok hcallee⟩, by simp [Call.targetList],
        by simp [Call.targetList]⟩
    · cases h

theorem constantOf_ok {t : Ty} {value : Constant} (h : constantOf i t = .ok value) :
    t = value.type ∧ (∀ bytes, value = .string bytes → bytes = i.str) ∧
      ∀ x, value = .float x → x = i.float := by
  unfold constantOf at h
  split at h
  case h_6 => cases h
  all_goals
    obtain rfl := Except.ok.inj h
    simp [Constant.type]

def Instr.Operands (d : Declarations) (calls : Array Call) (i : Instr) : Instruction → Prop
  | .const t value => t = value.type ∧ (∀ bytes, value = .string bytes → bytes = i.str) ∧
    ∀ x, value = .float x → x = i.float
  | .arith op _ => op.code.toNat < ArithOp.names.length
  | .compare c _ | .guard c _ => c.code.toNat < Cond.names.length
  | .getField m | .putField m => m < d.members.size ∧ d.isCode m = false
  | .call site => ∃ c, calls[site]? = some c ∧ callOf d i = .ok c
  | _ => True

/-- What an instruction keeps of the row it is read from. It need not have a type, whatever the row
says. -/
structure Instr.ReadAs (d : Declarations) (calls : Array Call) (i : Instr) (x : Instruction) :
    Prop where
  type : x.type = .absent ∨ typeOf d.classes.size i.type = .ok x.type
  operands : i.Operands d calls x
  read : ∃ before after, decodeInstr d before i = .ok (x, after)

theorem Instr.ReadAs.keep (h : Keeps calls calls') (hx : i.ReadAs d calls x) :
    i.ReadAs d calls' x := by
  refine ⟨hx.type, ?_, hx.read⟩
  have hoperands := hx.operands
  cases x with
  | call site =>
    obtain ⟨c, hget, hc⟩ := hoperands
    exact ⟨c, h site c hget, hc⟩
  | _ => exact hoperands

theorem arithOp_ok (h : arithOp i = .ok op) : op.code.toNat < ArithOp.names.length := by
  rw [arithOp] at h
  split at h
  · obtain rfl := Except.ok.inj h
    assumption
  · cases h

theorem condOf_ok (h : condOf i = .ok c) : c.code.toNat < Cond.names.length := by
  rw [condOf] at h
  split at h
  · obtain rfl := Except.ok.inj h
    assumption
  · cases h

theorem decodeInstr_ok (h : decodeInstr d calls i = .ok (x, calls')) :
    Keeps calls calls' ∧ i.ReadAs d calls' x := by
  have hread := h
  obtain ⟨t, ht, h⟩ := bind_ok.mp h
  -- all but calls leave the call sites alone
  have hplain : ∀ y : Instruction, (y.type = .absent ∨ y.type = t) → i.Operands d calls y →
      (.ok (y, calls) : Decode (Instruction × Array Call)) = .ok (x, calls') →
      Keeps calls calls' ∧ i.ReadAs d calls' x := by
    intro y htype hoperands hy
    obtain ⟨rfl, rfl⟩ := Prod.mk.inj (Except.ok.inj hy)
    refine ⟨.refl _, htype.imp_right fun heq => ?_, hoperands, _, _, hread⟩
    rw [heq, ht]
  rcases op_cases i.op with
    hop | hop | hop | hop | hop | hop | hop | hop | hop | hop | hop | hop | hop | hop | hop | hop |
    hop | hop | hop | hop
  · rw [decodeInstr_opcode ht hop] at hread
    cases hread
  all_goals simp +decide only [hop, ↓reduceIte] at h
  · exact hplain .nop (.inl rfl) trivial h
  · obtain ⟨value, hvalue, h⟩ := bind_ok.mp h
    obtain ⟨htype, hheld⟩ := constantOf_ok hvalue
    exact hplain (.ofConstant value) (.inr htype.symm) ⟨rfl, hheld⟩ h
  · exact hplain (.load i.slot t) (.inr rfl) trivial h
  · exact hplain (.store i.slot t) (.inr rfl) trivial h
  · obtain ⟨op, hop, h⟩ := bind_ok.mp h
    exact hplain (.arith op t) (.inr rfl) (arithOp_ok hop) h
  · exact hplain (.neg t) (.inr rfl) trivial h
  · exact hplain .not (.inl rfl) trivial h
  · obtain ⟨c, hc, h⟩ := bind_ok.mp h
    exact hplain (.compare c t) (.inr rfl) (condOf_ok hc) h
  · exact hplain (.dup t) (.inr rfl) trivial h
  · exact hplain (.pop t) (.inr rfl) trivial h
  · cases t with
    | object c => exact hplain (.new c) (.inr rfl) trivial h
    | _ => cases h
  · exact hplain (.newArray t) (.inr rfl) trivial h
  · exact hplain (.arrayLoad t) (.inr rfl) trivial h
  · exact hplain (.arrayStore t) (.inr rfl) trivial h
  · obtain ⟨m, hm, h⟩ := bind_ok.mp h
    exact hplain (.getField m) (.inl rfl) (fieldReference_ok hm) h
  · obtain ⟨m, hm, h⟩ := bind_ok.mp h
    exact hplain (.putField m) (.inl rfl) (fieldReference_ok hm) h
  · exact hplain (.ret t) (.inr rfl) trivial h
  · obtain ⟨c, hc, h⟩ := bind_ok.mp h
    exact hplain (.guard c t) (.inr rfl) (condOf_ok hc) h
  · obtain ⟨c, hc, h⟩ := bind_ok.mp h
    obtain ⟨rfl, rfl⟩ := Prod.mk.inj (Except.ok.inj h)
    exact ⟨.push _ _, .inl rfl, ⟨c, by simp, hc⟩, _, _, hread⟩

theorem decodeCode_ok {b j : Nat} {rows : List Instr} {code : List Instruction}
    (h : decodeCode d b j calls rows = .ok (code, calls')) :
    Keeps calls calls' ∧ List.Forall₂ (Instr.ReadAs d calls') rows code := by
  induction rows generalizing j calls code with
  | nil =>
    obtain ⟨rfl, rfl⟩ := Prod.mk.inj (Except.ok.inj h)
    exact ⟨.refl _, .nil⟩
  | cons i rows ih =>
    obtain ⟨⟨x, calls₁⟩, hx, h⟩ := bind_ok.mp h
    obtain ⟨⟨rest, calls₂⟩, hrest, h⟩ := bind_ok.mp h
    obtain ⟨rfl, rfl⟩ := Prod.mk.inj (Except.ok.inj h)
    obtain ⟨hkeep, hread⟩ := decodeInstr_ok (within_ok.mp hx)
    obtain ⟨hkeep', hreads⟩ := ih hrest
    -- later instructions add call sites, which leaves those of the first in place
    exact ⟨hkeep.trans hkeep', .cons (hread.keep hkeep') hreads⟩

-- ---------------------------------------------------------------------------
-- Blocks
-- ---------------------------------------------------------------------------

structure Block.CodeReadAs (d : Declarations) (calls : Array Call) (row : Block)
    (b : Linkage.Block) : Prop where
  nonempty : b.code ≠ []
  code : List.Forall₂ (Instr.ReadAs d calls) (row.code.getD []) b.code

theorem Block.CodeReadAs.keep (h : Keeps calls calls') {row : Block} {b : Linkage.Block}
    (hb : row.CodeReadAs d calls b) : row.CodeReadAs d calls' b :=
  ⟨hb.nonempty, hb.code.imp fun _ _ hx => hx.keep h⟩

theorem createBlocks_ok {g g' : Graph} {j : Nat} {rows : List Block}
    (h : createBlocks d g j rows = (g', none)) :
    Keeps g.calls g'.calls ∧ ∃ bs, g'.blocks = g.blocks ++ bs.toArray ∧
      List.Forall₂ (Block.CodeReadAs d g'.calls) rows bs := by
  induction rows generalizing g j with
  | nil =>
    obtain rfl := (Prod.mk.inj h).1
    exact ⟨.refl _, [], by simp, .nil⟩
  | cons row rows ih =>
    rw [createBlocks] at h
    split at h
    case h_1 => cases h
    case h_2 hne =>
      replace hne : row.code.getD [] ≠ [] := hne
      cases hcode : decodeCode d j 0 g.calls (row.code.getD []) with
      | error reason => simp [hcode] at h
      | ok r =>
        obtain ⟨code, calls⟩ := r
        obtain ⟨hkeep, hreads⟩ := decodeCode_ok hcode
        have hne' : code ≠ [] := by
          rintro rfl
          exact hne (List.forall₂_nil_right_iff.mp hreads)
        have hplace : Graph.orPlaceholder code = code := by
          cases code with
          | nil => contradiction
          | cons => rfl
        simp only [hcode, Graph.allocate, hplace] at h
        obtain ⟨hkeep', bs, hblocks, hall⟩ := ih h
        let b : Linkage.Block := { id := g.issued, code, succs := [], mergeable := !row.fixed }
        have hb : row.CodeReadAs d calls b := ⟨hne', hreads⟩
        refine ⟨hkeep.trans hkeep', b :: bs, ?_, .cons (hb.keep hkeep') hall⟩
        exact hblocks.trans (by simp [b])

theorem successors_ok {count j : Nat} {rows : List Int64} {succs : List (Option BlockRef)}
    (h : successors count j rows = .ok succs) :
    succs.length = rows.length ∧ ∀ succ ∈ succs, ∃ r, succ = some r ∧ r < count := by
  induction rows generalizing succs with
  | nil =>
    obtain rfl := Except.ok.inj h
    simp
  | cons row rows ih =>
    rw [successors] at h
    split at h
    · cases h
    · rename_i r hr
      cases hrest : successors count j rows with
      | error reason => simp [hrest, Except.map] at h
      | ok rest =>
        obtain ⟨hlen, hall⟩ := ih hrest
        simp only [hrest, Except.map, Except.ok.injEq] at h
        subst h
        refine ⟨by simp [hlen], List.forall_mem_cons.mpr ⟨⟨r, rfl, ?_⟩, hall⟩⟩
        exact (index?_eq_some.mp hr).2

structure Block.ReadAs (d : Declarations) (calls : Array Call) (count : Nat) (row : Block)
    (b : Linkage.Block) : Prop extends Block.CodeReadAs d calls row b where
  succs : ∀ succ ∈ b.succs, ∃ r, succ = some r ∧ r < count
  succsLength : b.succs.length = (row.succs.getD []).length
  read : ∃ i, successors count i (row.succs.getD []) = .ok b.succs

/-- Links the blocks from a place on. Those before it are linked already. -/
theorem linkBlocks_ok {g g' : Graph} (done : List Linkage.Block) {bs : List Linkage.Block}
    {rows : List Block} (hg : g.blocks = (done ++ bs).toArray) (hcount : g.blocks.size = count)
    (hrows : List.Forall₂ (Block.CodeReadAs d calls) rows bs)
    (h : linkBlocks g done.length rows = .ok g') :
    g'.calls = g.calls ∧ ∃ bs', g'.blocks = (done ++ bs').toArray ∧
      List.Forall₂ (Block.ReadAs d calls count) rows bs' := by
  induction hrows generalizing g done with
  | nil =>
    obtain rfl := Except.ok.inj h
    exact ⟨rfl, [], hg, .nil⟩
  | @cons row b rows bs hb _ ih =>
    obtain ⟨succs, hsuccs, h⟩ := bind_ok.mp h
    obtain ⟨hlen, hall⟩ := successors_ok hsuccs
    have hget : g.blocks[done.length]? = some b := by simp [hg]
    rw [hget] at h
    let b' : Linkage.Block := { b with succs }
    have hset : (g.setBlock done.length b').blocks = ((done ++ [b']) ++ bs).toArray := by
      simp [Graph.setBlock, hg]
    obtain ⟨hcalls, bs', hblocks, hreads⟩ :=
      ih _ hset (by simpa [Graph.setBlock] using hcount) (by simpa using h)
    have hb' : row.ReadAs d calls count b' := ⟨⟨hb.nonempty, hb.code⟩, hcount ▸ hall, hlen,
      _, hcount ▸ hsuccs⟩
    exact ⟨hcalls, b' :: bs', by simpa using hblocks, .cons hb' hreads⟩

-- ---------------------------------------------------------------------------
-- Bodies and the whole
-- ---------------------------------------------------------------------------

theorem codeMember_ok (h : codeMember d n = .ok m) : d.isCode m = true := by
  rw [codeMember] at h
  split at h
  · cases h
  · split at h
    · rename_i hcode
      obtain rfl := Except.ok.inj h
      exact hcode
    · cases h

/-- The bodies of a registry are for different members that may have one, and have roots. -/
structure BodiesRead (d : Declarations) (count : Nat) (code : Registry) : Prop where
  keys : (code.map (·.1)).Nodup
  isCode : ∀ body ∈ code, d.isCode body.1 = true
  roots : ∀ body ∈ code, ∃ r, body.2 = some r ∧ r < count

theorem decodeBodies_ok {code r : Registry} {bodies : List Body} {j : Nat}
    (hcode : BodiesRead d count code) (h : decodeBodies d count code j bodies = .ok r) :
    BodiesRead d count r := by
  induction bodies generalizing code j with
  | nil =>
    obtain rfl := Except.ok.inj h
    exact hcode
  | cons b bodies ih =>
    obtain ⟨m, root, hm, hroot, hfree, hrest⟩ := decodeBodies_cons.mp h
    refine ih ⟨?_, ?_, ?_⟩ hrest
    · have hnew : m ∉ code.map (·.1) := by
        rw [List.mem_map]
        rintro ⟨body, hbody, rfl⟩
        simpa using List.lookup_eq_none_iff.mp hfree body hbody
      simpa using hcode.keys.concat hnew
    · exact List.forall_mem_append.mpr
        ⟨hcode.isCode, List.forall_mem_singleton.mpr (codeMember_ok hm)⟩
    · refine List.forall_mem_append.mpr ⟨hcode.roots, List.forall_mem_singleton.mpr ?_⟩
      exact ⟨root, rfl, (index?_eq_some.mp hroot).2⟩

def Body.ReadAs (d : Declarations) (count : Nat) (row : Body) (body : MemberId × Option BlockRef) :
    Prop :=
  codeMember d row.member = .ok body.1 ∧ ∃ root, index? count row.root = some root ∧
    body.2 = some root

theorem decodeBodies_rows_ok {code r : Registry} {bodies : List Body} {j : Nat}
    (h : decodeBodies d count code j bodies = .ok r) :
    ∃ more, r = code ++ more ∧ List.Forall₂ (Body.ReadAs d count) bodies more := by
  induction bodies generalizing code j with
  | nil =>
    obtain rfl := Except.ok.inj h
    exact ⟨[], by simp, .nil⟩
  | cons b bodies ih =>
    obtain ⟨m, root, hm, hroot, -, hrest⟩ := decodeBodies_cons.mp h
    obtain ⟨more, rfl, hmore⟩ := ih hrest
    exact ⟨(m, some root) :: more, by simp, .cons ⟨hm, root, hroot, rfl⟩ hmore⟩

end

section
variable {img : Image} {u : LinkUnit} {entry : MemberId}

/-- A unit that was read from an image: every table holds what the rows of the image say. -/
structure ReadFrom (img : Image) (u : LinkUnit) : Prop where
  classes : u.declarations.classes =
    ((img.classes.getD []).map (Class.toDecl (img.classes.getD []).length)).toArray
  classNames : ∀ c ∈ img.classes.getD [], c.name ≠ ""
  acyclic : ∀ c, ¬ Relation.TransGen u.declarations.Extends c c
  members : List.Forall₂ (Member.ReadAs u.declarations.classes.size) (img.members.getD [])
    u.declarations.members.toList
  blocks : List.Forall₂ (Block.ReadAs u.declarations u.graph.calls u.graph.blocks.size)
    (img.blocks.getD []) u.graph.blocks.toList
  main : u.declarations.isCode u.entry
  start : codeMember u.declarations img.entry = .ok u.entry
  bodies : BodiesRead u.declarations u.graph.blocks.size u.code
  code : List.Forall₂ (Body.ReadAs u.declarations u.graph.blocks.size) (img.bodies.getD []) u.code

theorem readFrom_of_decode (h : (img.decode issued).1 = .ok u) : img.ReadFrom u := by
  obtain ⟨id, d, g, htables, hcreate, hrest⟩ := decode_ok.mp h
  obtain ⟨-, -, d₀, hclasses, hmembers⟩ := decodeTables_ok.mp htables
  obtain ⟨g', entry, code, reachable, hlink, hentry, hbodies, -, rfl⟩ := decodeRest_ok.mp hrest
  obtain ⟨rfl, hnames, hacyclic⟩ := decodeClasses_ok hclasses
  obtain ⟨ks, rfl, hks⟩ := decodeMembers_ok hmembers
  obtain ⟨-, bs, hbs, hcode⟩ := createBlocks_ok hcreate
  obtain ⟨hcalls, bs', hbs', hblocks⟩ := linkBlocks_ok [] (by simpa using hbs) rfl hcode hlink
  have hsize := linkBlocks_size hlink
  obtain ⟨more, rfl, hmore⟩ := decodeBodies_rows_ok hbodies
  refine ⟨rfl, hnames, hacyclic, ?_, ?_, codeMember_ok hentry, hentry, ?_, hmore⟩
  · have hreads := hks.imp fun row k h => readAs_of_decodeMember h.choose_spec
    simpa using hreads
  · simpa [hbs', hcalls, ← hsize] using hblocks
  · exact decodeBodies_ok (show BodiesRead _ _ [] from ⟨.nil, by simp, by simp⟩) hbodies

theorem typeOf_over {count : Nat} {s : String} {t : Ty} (h : typeOf count s = .ok t) :
    t = .absent ∨ t.Over count :=
  (typeOf_ok.mp h).imp And.right Denotes.over

theorem Instr.ReadAs.over {d : Declarations} {calls : Array Call} {i : Instr} {x : Instruction}
    (h : i.ReadAs d calls x) : x.type = .absent ∨ x.type.Over d.classes.size :=
  h.type.elim .inl typeOf_over

theorem Instr.ReadAs.names_lt {d : Declarations} {calls : Array Call} {i : Instr} {x : Instruction}
    (h : i.ReadAs d calls x) (hm : m ∈ x.names calls) : m < d.members.size := by
  have hoperands := h.operands
  cases x with
  | getField f | putField f =>
    obtain rfl := List.mem_singleton.mp hm
    exact hoperands.1
  | call site =>
    obtain ⟨c, hget, hc⟩ := hoperands
    obtain ⟨⟨callee, hcallee, hcode⟩, htargets, -⟩ := callOf_ok hc
    have hmem : some m ∈ c.callee :: c.targetList := by
      simpa [Instruction.names, hget] using hm
    rcases List.mem_cons.mp hmem with heq | hmem
    · obtain rfl := Option.some.inj (heq.trans hcallee)
      exact Declarations.lt_of_isCode hcode
    · obtain ⟨m', heq, hcode⟩ := htargets _ hmem
      obtain rfl := Option.some.inj heq
      exact Declarations.lt_of_isCode hcode
  | _ => cases hm

namespace ReadFrom

theorem member (h : img.ReadFrom u) (hk : k ∈ u.declarations.members) :
    ∃ row ∈ img.members.getD [], row.ReadAs u.declarations.classes.size k :=
  exists_of_forall₂ h.members.flip (Array.mem_toList_iff.mpr hk)

theorem block (h : img.ReadFrom u) (hb : b ∈ u.graph.blocks) :
    ∃ row ∈ img.blocks.getD [],
      row.ReadAs u.declarations u.graph.calls u.graph.blocks.size b :=
  exists_of_forall₂ h.blocks.flip (Array.mem_toList_iff.mpr hb)

theorem instruction (h : img.ReadFrom u) (hb : b ∈ u.graph.blocks) (hx : x ∈ b.code) :
    ∃ row : Instr, row.ReadAs u.declarations u.graph.calls x := by
  obtain ⟨row, -, hrow⟩ := h.block hb
  obtain ⟨i, -, hi⟩ := exists_of_forall₂ hrow.code.flip hx
  exact ⟨i, hi⟩

theorem isCode (h : img.ReadFrom u) (hentry : entry ∈ u.entry :: u.code.map (·.1)) :
    u.declarations.isCode entry := by
  rcases List.mem_cons.mp hentry with rfl | hentry
  · exact h.main
  · obtain ⟨body, hbody, rfl⟩ := List.mem_map.mp hentry
    exact h.bodies.isCode body hbody

theorem rooted (h : img.ReadFrom u) : u.code.Rooted := by
  intro body hbody
  obtain ⟨r, hr, -⟩ := h.bodies.roots body hbody
  rw [hr, Option.isSome_some]

/-- Nothing in a unit that was read leads outside it. -/
theorem closed (h : img.ReadFrom u) (hentry : u.declarations.isCode entry) :
    u.code.StoreClosed u.declarations u.graph entry where
  main := hentry
  bodies := h.bodies.isCode
  roots body hbody r hr := by
    obtain ⟨r', hr', hlt⟩ := h.bodies.roots body hbody
    obtain rfl := Option.some.inj (hr'.symm.trans hr)
    exact hlt
  supers c s hs := by
    rw [Declarations.Extends, Declarations.superOf, h.classes] at hs
    obtain ⟨k, hk, hsuper⟩ := Option.bind_eq_some_iff.mp hs
    rw [List.getElem?_toArray] at hk
    obtain ⟨row, -, rfl⟩ := List.mem_map.mp (List.mem_of_getElem? hk)
    have hlt := reference?_lt hsuper
    simpa [h.classes] using hlt
  owners k hk := by
    obtain ⟨row, -, hrow⟩ := h.member hk
    exact hrow.owner
  types k hk t ht := by
    obtain ⟨row, -, hrow⟩ := h.member hk
    obtain ⟨s, -, hs⟩ := hrow.types t ht
    exact hs.over.2
  succs b hb succ hsucc r hr := by
    obtain ⟨row, -, hrow⟩ := h.block hb
    obtain ⟨r', rfl, hlt⟩ := hrow.succs succ hsucc
    obtain rfl := Option.some.inj hr
    exact hlt
  operands b hb x hx c hc := by
    obtain ⟨i, hi⟩ := h.instruction hb hx
    rcases hi.over with habsent | hover
    · rw [habsent] at hc
      cases hc
    · exact hover.2 c hc
  names b hb x hx m hm := by
    obtain ⟨i, hi⟩ := h.instruction hb hx
    exact hi.names_lt hm

end ReadFrom

-- ---------------------------------------------------------------------------
-- Within limits
-- ---------------------------------------------------------------------------

theorem Within.getD {P : α → Prop} {xs : Option (List α)} (h : Within P xs) :
    (xs.getD []).length ≤ Cbor.maxElements ∧ ∀ a ∈ xs.getD [], P a := by
  cases xs with
  | none => exact ⟨Nat.zero_le _, by simp⟩
  | some l => exact h l rfl

section
variable {d : Declarations} {calls : Array Call} {i : Instr} {x : Instruction} {n : Nat}

theorem Member.ReadAs.portable {row : Member} {k : Linkage.Member} (hn : n < 2 ^ 63)
    (h : row.ReadAs count k) (hrow : row.Bounded n) : k.Portable where
  name := by
    rcases h.name with hname | hname
    · rw [hname]
      exact Nat.lt_of_le_of_lt hrow.name (by omega)
    · rw [hname]
      decide
  types t ht := by
    obtain ⟨s, hs, hdenotes⟩ := h.types t ht
    refine hdenotes.portable (Nat.lt_of_le_of_lt ?_ hn)
    rcases List.mem_cons.mp hs with rfl | hs
    · exact hrow.type
    · exact hrow.params.getD.2 s hs
  params := h.params.trans hrow.params.getD.1

theorem Instr.ReadAs.portable (hn : n < 2 ^ 63) (h : i.ReadAs d calls x) (hi : i.Bounded n) :
    x.Portable d calls where
  type := by
    refine h.type.elim .inl fun htype => (typeOf_ok.mp htype).imp And.right fun hdenotes => ?_
    exact hdenotes.portable (Nat.lt_of_le_of_lt hi.type hn)
  operands := by
    have hoperands := h.operands
    cases x with
    | const t value =>
      refine ⟨hoperands.1, ?_⟩
      cases value with
      | string bytes =>
        obtain rfl := hoperands.2.1 bytes rfl
        exact ⟨hi.str.2, Nat.lt_of_le_of_lt hi.str.1 (by omega)⟩
      | _ => trivial
    | getField m | putField m => exact hoperands.2
    | call site =>
      obtain ⟨c, hget, hc⟩ := hoperands
      obtain ⟨hcallee, htargets, hlen⟩ := callOf_ok hc
      exact ⟨c, hget, hcallee, htargets, hlen.trans hi.targets.getD.1⟩
    | _ => exact hoperands

theorem Block.ReadAs.portable {row : Block} {b : Linkage.Block} (hn : n < 2 ^ 63)
    (h : row.ReadAs d calls count b) (hrow : row.Bounded n) : b.Portable d calls where
  nonempty := h.nonempty
  succs hnone := by
    obtain ⟨r, hr, -⟩ := h.succs none hnone
    cases hr
  code x hx := by
    obtain ⟨i, hi, hread⟩ := exists_of_forall₂ h.code.flip hx
    exact hread.portable hn (hrow.code.getD.2 i hi)
  codeLimit := h.code.length_eq ▸ hrow.code.getD.1
  succsLimit := h.succsLength ▸ hrow.succs.getD.1

end

/-- A unit that was read can be written, if no text of its image is too long. -/
theorem ReadFrom.portable (h : img.ReadFrom u) (himg : img.Bounded n) (hn : n < 2 ^ 63)
    (hentry : u.declarations.isCode entry) :
    u.code.Portable u.declarations u.graph entry := by
  refine (h.closed hentry).portable h.bodies.keys h.rooted h.acyclic ⟨?_, fun k hk => ?_⟩
    ⟨?_, fun k hk => ?_⟩ ⟨?_, fun b hb => ?_⟩
  · simpa [h.classes] using himg.classes.getD.1
  · rw [h.classes, List.mem_toArray] at hk
    obtain ⟨row, hrow, rfl⟩ := List.mem_map.mp hk
    exact ⟨h.classNames row hrow, Nat.lt_of_le_of_lt (himg.classes.getD.2 row hrow) (by omega)⟩
  · rw [← Array.length_toList, ← h.members.length_eq]
    exact himg.members.getD.1
  · obtain ⟨row, hrow, hread⟩ := h.member hk
    exact hread.portable hn (himg.members.getD.2 row hrow)
  · rw [← Array.length_toList, ← h.blocks.length_eq]
    exact himg.blocks.getD.1
  · obtain ⟨row, hrow, hread⟩ := h.block hb
    exact hread.portable hn (himg.blocks.getD.2 row hrow)

theorem exists_image (h : (LinkUnit.decode bytes issued).1 = .ok u) :
    ∃ img, unmarshal bytes = some img ∧ (img.decode issued).1 = .ok u := by
  rw [LinkUnit.decode] at h
  cases himg : unmarshal bytes with
  | none => simp [himg] at h
  | some img =>
    refine ⟨img, rfl, ?_⟩
    cases hdecode : img.decode issued with
    | mk r next => cases r <;> simp_all

theorem exists_readFrom (h : (LinkUnit.decode bytes issued).1 = .ok u) :
    ∃ img, unmarshal bytes = some img ∧ img.ReadFrom u := by
  obtain ⟨img, himg, hu⟩ := exists_image h
  exact ⟨img, himg, readFrom_of_decode hu⟩

end

end Image

end Linkage
