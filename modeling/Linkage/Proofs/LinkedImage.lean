import Linkage.Proofs.Accepted
import Linkage.Proofs.Relinking
import Linkage.Proofs.Repetition

/-!
# Linked images

The image of a linked program holds the bodies of the members in reach and no others. It needs no
others: what the walk of the pruned program asks for is among them. So what is read back is linked
to the same members again.
-/

namespace Linkage

-- ---------------------------------------------------------------------------
-- Fewer bodies, fewer successors
-- ---------------------------------------------------------------------------

namespace Graph

section
variable {g g' : Graph} {V : Set BlockRef} {r q : BlockRef}

theorem PrunedTo.edge (h : g.PrunedTo g' V) (he : g'.Edge r q) : g.Edge r q := by
  obtain ⟨b, hb, hq⟩ := he
  obtain ⟨b₀, hb₀, -, hsub, -⟩ := h.origin hb
  exact ⟨b₀, hb₀, hsub.subset hq⟩

theorem PrunedTo.reaches (h : g.PrunedTo g' V) (hp : g'.Reaches r q) : g.Reaches r q :=
  hp.lift id fun _ _ => h.edge

end

end Graph

namespace Registry

def restrict (code : Registry) (ms : List MemberId) : Registry :=
  code.filter fun body => body.1 ∈ ms

theorem find_restrict (code : Registry) (ms : List MemberId) (m : MemberId) :
    (code.restrict ms).find m = if m ∈ ms then code.find m else none := by
  induction code with
  | nil => simp [restrict, find]
  | cons body code ih =>
    obtain ⟨k, root⟩ := body
    rw [restrict, find] at ih ⊢
    by_cases hm : m = k
    · subst hm
      by_cases hk : m ∈ ms
      · simp [find, hk]
      · simpa [hk] using ih
    · have hskip : List.lookup m ((k, root) :: code) = List.lookup m code := by
        simp [List.lookup_cons, beq_false_of_ne hm]
      by_cases hk : k ∈ ms
      · simpa [find, hskip, hk, List.lookup_cons, beq_false_of_ne hm] using ih
      · simpa [find, hskip, hk] using ih

theorem body?_restrict {code : Registry} {ms : List MemberId} {m : MemberId} {root : BlockRef} :
    (code.restrict ms).body? m = some root ↔ m ∈ ms ∧ code.body? m = some root := by
  rw [body?_eq_some, find_restrict, body?_eq_some]
  split <;> simp_all

section
variable {d : Declarations} {g g' : Graph} {V : Set BlockRef} {code part : Registry}
  {entry m : MemberId}

theorem find_of_sublist (hkeys : (code.map (·.1)).Nodup) (hsub : part.Sublist code)
    (h : part.find m = some root) : code.find m = some root :=
  (Numbering.find_eq_some_iff hkeys).mpr (hsub.subset (mem_of_find h))

theorem body?_of_sublist (hkeys : (code.map (·.1)).Nodup) (hsub : part.Sublist code)
    (h : part.body? m = some root) : code.body? m = some root :=
  body?_eq_some.mpr (find_of_sublist hkeys hsub (body?_eq_some.mp h))

theorem ListsBlock.of_pruned (hprune : g.PrunedTo g' V) (hkeys : (code.map (·.1)).Nodup)
    (hsub : part.Sublist code) (h : part.ListsBlock g' r) : code.ListsBlock g r := by
  obtain ⟨m, root, hroot, hpath⟩ := h
  exact ⟨m, root, body?_of_sublist hkeys hsub hroot, hprune.reaches hpath⟩

theorem ListsMember.of_pruned (hprune : g.PrunedTo g' V) (hkeys : (code.map (·.1)).Nodup)
    (hsub : part.Sublist code) (h : part.ListsMember g' entry m) : code.ListsMember g entry m := by
  cases h with
  | entry => exact .entry
  | body hfind =>
    obtain ⟨root, hroot⟩ := Option.isSome_iff_exists.mp hfind
    exact .body (by simp [find_of_sublist hkeys hsub hroot])
  | named hr hb hi hm =>
    obtain ⟨b₀, hb₀, hcode, -, -⟩ := hprune.origin hb
    exact .named (hr.of_pruned hprune hkeys hsub) hb₀ (hcode ▸ hi) (hprune.calls ▸ hm)

theorem ListsClass.of_pruned (hprune : g.PrunedTo g' V) (hkeys : (code.map (·.1)).Nodup)
    (hsub : part.Sublist code) (h : part.ListsClass d g' entry c) :
    code.ListsClass d g entry c := by
  induction h with
  | owner hm hk => exact .owner (hm.of_pruned hprune hkeys hsub) hk
  | signature hm hk ht hc => exact .signature (hm.of_pruned hprune hkeys hsub) hk ht hc
  | body hr hb hi hc =>
    obtain ⟨b₀, hb₀, hcode, -, -⟩ := hprune.origin hb
    exact .body (hr.of_pruned hprune hkeys hsub) hb₀ (hcode ▸ hi) hc
  | super _ hs ih => exact .super ih hs

theorem Portable.pruned (hp : code.Portable d g entry) (hprune : g.PrunedTo g' V)
    (hsub : part.Sublist code) : part.Portable d g' entry where
  keys := (hsub.map _).nodup hp.keys
  rooted body hbody := hp.rooted body (hsub.subset hbody)
  main := hp.main
  bodies body hbody := hp.bodies body (hsub.subset hbody)
  classes c hc := hp.classes c (hc.of_pruned hprune hp.keys hsub)
  acyclic c hc := hp.acyclic c (hc.of_pruned hprune hp.keys hsub)
  members m hm := hp.members m (hm.of_pruned hprune hp.keys hsub)
  blocks r hr := by
    obtain ⟨b, hb, hport⟩ := hp.blocks r (hr.of_pruned hprune hp.keys hsub)
    obtain ⟨succs, hb', -, hsucc, -⟩ := hprune.block hb
    refine ⟨_, hb', hport.nonempty, fun hnil => hport.succs (hsucc.subset hnil), ?_,
      hport.codeLimit, hsucc.length_le.trans hport.succsLimit⟩
    rw [hprune.calls]
    exact hport.code
  classLimit :=
    (Set.encard_le_encard fun _ hc => hc.of_pruned hprune hp.keys hsub).trans hp.classLimit
  memberLimit :=
    (Set.encard_le_encard fun _ hm => hm.of_pruned hprune hp.keys hsub).trans hp.memberLimit
  blockLimit :=
    (Set.encard_le_encard fun _ hr => hr.of_pruned hprune hp.keys hsub).trans hp.blockLimit

end

end Registry

-- ---------------------------------------------------------------------------
-- What is found
-- ---------------------------------------------------------------------------

namespace Registry

/-- The entry, and what instructions in reach of it refer to. -/
inductive Found (code : Registry) (g : Graph) (entry : MemberId) : MemberId → Prop
  | entry : Found code g entry entry
  | refers {m r b i n} : code.Meets g entry m r → g.blocks[r]? = some b → i ∈ b.code →
      i.Refers code g.calls n → Found code g entry n

section
variable {d : Declarations} {g : Graph} {code : Registry} {entry m : MemberId}

theorem Meets.path (h : code.Meets g entry m r) (hp : g.Reaches r q) : code.Meets g entry m q := by
  induction hp with
  | refl => exact h
  | tail _ hedge ih => exact ih.succ hedge

theorem Portable.field (hp : code.Portable d g entry) (hm : code.Meets g entry m r)
    (hb : g.blocks[r]? = some b) (hi : i ∈ b.code) (hf : Instruction.field? i = some n) :
    d.isCode n = false := by
  obtain ⟨b', hb', hport⟩ := hp.blocks r (Portable.lists_of_meets hm)
  obtain rfl := Option.some.inj (hb'.symm.trans hb)
  have hoperands := (hport.code i hi).operands
  cases i with
  | getField m' =>
    obtain rfl := Option.some.inj hf
    exact hoperands
  | putField m' =>
    obtain rfl := Option.some.inj hf
    exact hoperands
  | _ => cases hf

theorem Portable.isCode_of_body (hp : code.Portable d g entry) (h : code.body? m = some root) :
    d.isCode m = true :=
  hp.bodies _ (mem_of_find (body?_eq_some.mp h))

theorem Found.meets (h : code.Found g entry m) (hp : code.Portable d g entry)
    (hroot : code.body? m = some root) : code.Meets g entry m root := by
  have hcode := hp.isCode_of_body hroot
  cases h with
  | entry => exact .entry hroot
  | refers hm hb hi href =>
    cases href with
    | get => simp [hp.field hm hb hi rfl] at hcode
    | put => simp [hp.field hm hb hi rfl] at hcode
    | call hc hrun => exact .call hm hb hi hc hrun hroot

theorem Portable.closed_found (hp : code.Portable d g entry) :
    code.Closed g entry {m | code.Found g entry m} where
  entry := .entry
  refers hm hroot hpath hb hi href := .refers ((Found.meets hm hp hroot).path hpath) hb hi href

end

end Registry

namespace Sweep

section
variable {d : Declarations} {code : Registry} {g : Graph} {entry m n : MemberId} {t : Sweep}
  {r : BlockRef} {b : Block}

theorem Complete.mem_of_refers (h : t.Complete code g entry) (hstack : t.stack = [])
    (hm : code.Meets g entry m r) (hb : g.blocks[r]? = some b) (hi : i ∈ b.code)
    (href : Instruction.Refers code g.calls i n) : n ∈ t.reachable :=
  h.mem_of_covers hstack (h.covers_of_meets hstack hm) hb hi href

theorem Complete.mem_of_meets (h : t.Complete code g entry) (hstack : t.stack = [])
    (hentry : entry ∈ t.reachable) (hm : code.Meets g entry m r) : m ∈ t.reachable := by
  induction hm with
  | entry _ => exact hentry
  | succ _ _ ih => exact ih
  | call hm hb hi hc hrun _ _ => exact h.mem_of_refers hstack hm hb hi (.call hc hrun)

theorem Complete.body_of_isCode (h : t.Complete code g entry) (hstack : t.stack = [])
    (hp : code.Portable d g entry) (hentry : ∃ q, code.body? entry = some q)
    (hm : code.Found g entry m) (hcode : d.isCode m = true) : ∃ q, code.body? m = some q := by
  cases hm with
  | entry => exact hentry
  | refers hm hb hi href =>
    cases href with
    | get => simp [hp.field hm hb hi rfl] at hcode
    | put => simp [hp.field hm hb hi rfl] at hcode
    | call hc hrun =>
      cases hrun with
      | target hts hmem =>
        by_contra hnone
        have hmissing : (some m).bind code.body? = none :=
          Option.eq_none_iff_forall_ne_some.mpr fun q hq => hnone ⟨q, hq⟩
        have hflaw : Block.Flaw code g.calls _ (.missingCode entry) (some m) :=
          .missing hi hc hts hmem hmissing
        exact h.no_flaw hstack hm hb hflaw
      | callee _ _ hfind => exact hp.rooted.find_isSome.mp hfind

/-- A walk of a portable program that came to its end. -/
structure Finished (d : Declarations) (code : Registry) (g : Graph) (entry : MemberId)
    (t : Sweep) : Prop where
  portable : code.Portable d g entry
  main : ∃ q, code.body? entry = some q
  sound : t.Sound code g entry
  complete : t.Complete code g entry
  stack : t.stack = []

namespace Finished

theorem found (h : t.Finished d code g entry) (hm : m ∈ t.reachable) : code.Found g entry m :=
  h.sound.least _ h.portable.closed_found m hm

/-- The blocks in the bodies of what was found are those in reach. -/
theorem meets_of_lists (h : t.Finished d code g entry)
    (hr : (code.restrict t.reachable).ListsBlock g r) : ∃ m, code.Meets g entry m r := by
  obtain ⟨m, q, hq, hpath⟩ := hr
  obtain ⟨hm, hbody⟩ := Registry.body?_restrict.mp hq
  exact ⟨m, ((h.found hm).meets h.portable hbody).path hpath⟩

theorem lists_of_meets (h : t.Finished d code g entry) (hm : code.Meets g entry m r) :
    (code.restrict t.reachable).ListsBlock g r := by
  obtain ⟨q, hq, hpath⟩ := hm.body
  have hmem := h.complete.mem_of_meets h.stack h.sound.entry_mem hm
  exact ⟨m, q, Registry.body?_restrict.mpr ⟨hmem, hq⟩, hpath⟩

theorem listsMember (h : t.Finished d code g entry) (hm : m ∈ t.reachable) :
    (code.restrict t.reachable).ListsMember g entry m := by
  cases h.found hm with
  | entry => exact .entry
  | refers hmeets hb hi href =>
    refine .named (h.lists_of_meets hmeets) hb hi ?_
    cases href with
    | get => exact .get
    | put => exact .put
    | call hc hrun => exact hrun.asks.names hc

theorem find_asked (h : t.Finished d code g entry)
    (hr : (code.restrict t.reachable).ListsBlock g r) (hb : g.blocks[r]? = some b)
    (hi : .call site ∈ b.code) (hc : g.calls[site]? = some c) (hask : c.Asks m) :
    code.find m = (code.restrict t.reachable).find m := by
  rw [Registry.find_restrict]
  split
  · rfl
  · rename_i hout
    by_contra hfind
    obtain ⟨m', hmeets⟩ := h.meets_of_lists hr
    have hrun : c.Runs code m := by
      cases hask with
      | target hts hm => exact .target hts hm
      | callee hts hm => exact .callee hts hm (Option.isSome_iff_ne_none.mpr hfind)
    exact hout (h.complete.mem_of_refers h.stack hmeets hb hi (.call hc hrun))

theorem portable_restrict (h : t.Finished d code g entry) :
    (code.restrict t.reachable).Portable d g entry :=
  h.portable.pruned (V := ∅) .refl List.filter_sublist

theorem mem_keys (h : t.Finished d code g entry) :
    (∃ q, (code.restrict t.reachable).body? m = some q) ↔ m ∈ t.reachable ∧ d.isCode m = true := by
  constructor
  · rintro ⟨q, hq⟩
    obtain ⟨hm, hbody⟩ := Registry.body?_restrict.mp hq
    exact ⟨hm, h.portable.isCode_of_body hbody⟩
  · rintro ⟨hm, hcode⟩
    obtain ⟨q, hq⟩ := h.complete.body_of_isCode h.stack h.portable h.main (h.found hm) hcode
    exact ⟨q, Registry.body?_restrict.mpr ⟨hm, hq⟩⟩

end Finished

end

end Sweep

-- ---------------------------------------------------------------------------
-- Writing and reading
-- ---------------------------------------------------------------------------

namespace LinkUnit.Restores

section
variable {κ : ClassId → ClassId} {μ : MemberId → MemberId} {β : BlockRef → BlockRef}
  {d : Declarations} {g : Graph} {code : Registry} {entry m : MemberId} {u : LinkUnit}

theorem isCode (h : u.Restores κ μ β d g code entry) (hp : code.Portable d g entry)
    (hm : code.ListsMember g entry m) : u.declarations.isCode (μ m) = d.isCode m := by
  obtain ⟨k, hk, -⟩ := hp.members m hm
  simp [Declarations.isCode, h.members m k hm hk, hk, Numbering.hasCode_rename]

theorem rooted (h : u.Restores κ μ β d g code entry) (hp : code.Portable d g entry)
    (hkeys : (u.code.map (·.1)).Nodup) : u.code.Rooted := by
  rintro ⟨m', root'⟩ hbody
  have hfind' := (Numbering.find_eq_some_iff hkeys).mpr hbody
  obtain ⟨m, root, hfind, -, rfl⟩ := (h.registry m' root').mp hfind'
  cases root with
  | none => exact absurd hfind hp.rooted.find_ne
  | some r => rfl

/-- The bodies that are read back are those of the methods and constructors among some members, if
the bodies that were written are. -/
theorem keys_perm (h : u.Restores κ μ β d g code entry) (hp : code.Portable d g entry)
    (hkeys : (u.code.map (·.1)).Nodup) {ms : List MemberId} (hnodup : ms.Nodup)
    (hms : ∀ m ∈ ms, code.ListsMember g entry m)
    (hcode : ∀ m, (∃ root, code.body? m = some root) ↔ m ∈ ms ∧ d.isCode m = true) :
    (u.code.map (·.1)).Perm ((ms.map μ).filter u.declarations.isCode) := by
  have hnodup' : (ms.map μ).Nodup :=
    hnodup.map_on fun m hm m' hm' => h.memberNumbers.injOn (hms m hm) (hms m' hm')
  refine (List.perm_ext_iff_of_nodup hkeys (hnodup'.filter _)).mpr fun m' => ?_
  rw [← Registry.find_isSome, List.mem_filter]
  constructor
  · intro hfind'
    obtain ⟨root', hroot'⟩ := Option.isSome_iff_exists.mp hfind'
    obtain ⟨m, root, hroot, rfl, -⟩ := (h.registry m' root').mp hroot'
    obtain ⟨hm, hm'⟩ := (hcode m).mp (hp.rooted.find_isSome.mp (by simp [hroot]))
    exact ⟨List.mem_map_of_mem hm, (h.isCode hp (hms m hm)).trans hm'⟩
  · rintro ⟨hm', hcode'⟩
    obtain ⟨m, hm, rfl⟩ := List.mem_map.mp hm'
    rw [h.isCode hp (hms m hm)] at hcode'
    obtain ⟨root, hroot⟩ := (hcode m).mpr ⟨hm, hcode'⟩
    have hfind := (h.registry (μ m) _).mpr ⟨m, _, Registry.body?_eq_some.mp hroot, rfl, rfl⟩
    simp [hfind]

theorem listing (h : u.Restores κ μ β d g code entry) (ms : List MemberId) :
    LinkUnit.Restores κ μ β d g code entry { u with linked := true, reachable := ms } :=
  ⟨h.classNumbers, h.memberNumbers, h.blockNumbers, h.main, h.registry, h.classes, h.members,
    h.blocks⟩

end

end LinkUnit.Restores

namespace Image

open Encoder (position nonempty)

def listing (img : Image) (rows : List Int64) : Image :=
  { img with linked := true, reachable := nonempty rows }

theorem Fits.listing {img : Image} (h : img.Fits) {rows : List Int64}
    (hrows : rows.length ≤ Cbor.maxElements) : (img.listing rows).Fits :=
  { h with reachable := within_nonempty hrows fun _ _ => trivial }

theorem normal_listing (img : Image) (rows : List Int64) :
    (img.listing rows).normal = img.normal.listing rows := by
  simp [normal, listing]

theorem decodeReachable_positions {count : Nat} (hcount : count < 2 ^ 63) {μ : MemberId → Nat}
    {ms : List MemberId} (hms : ∀ m ∈ ms, μ m < count) :
    decodeReachable count (ms.map fun m => position (μ m)) = .ok (ms.map μ) := by
  induction ms with
  | nil => rfl
  | cons m ms ih =>
    obtain ⟨hm, hms⟩ := List.forall_mem_cons.mp hms
    rw [List.map_cons, decodeReachable, index?_position hm hcount]
    simp only [ih hms]
    rfl

/-- Members in reach change nothing in how the rest is read. -/
theorem decode_listing {img : Image} {u : LinkUnit} {rows : List Int64} {ms : List MemberId}
    (h : img.decode issued = (.ok u, next))
    (hms : decodeReachable u.declarations.members.size rows = .ok ms) :
    (img.listing rows).decode issued = (.ok { u with linked := true, reachable := ms }, next) := by
  have htables : decodeTables (img.listing rows) = decodeTables img := rfl
  rw [decode] at h ⊢
  rw [htables]
  cases hread : decodeTables img with
  | error reason => simp [hread] at h
  | ok tables =>
    obtain ⟨id, d⟩ := tables
    simp only [hread, listing] at h ⊢
    cases hcreate : createBlocks d { issued } 0 (img.blocks.getD []) with
    | mk g failure =>
      cases failure with
      | some reason => simp [hcreate] at h
      | none =>
        simp only [hcreate] at h ⊢
        obtain ⟨hrest, hnext⟩ := Prod.mk.inj h
        obtain ⟨g', entry, code, reachable, hlink, hentry, hcode, -, rfl⟩ := decodeRest_ok.mp hrest
        refine Prod.ext (decodeRest_ok.mpr ?_) hnext
        exact ⟨g', entry, code, ms, hlink, hentry, hcode, by simpa using hms, rfl⟩

end Image

namespace Numbering

open Image
open Image.Encoder (position nonempty)

section
variable {n : Numbering} {d : Declarations} {g : Graph} {code : Registry} {entry : MemberId}
  {runId : RunId}

theorem Covers.decode_listing (hn : n.Covers d g code entry) (hp : code.Portable d g entry)
    (hid : runId.bytes.length = 16) {ms : List MemberId} (hnodup : ms.Nodup)
    (hms : ∀ m ∈ ms, code.ListsMember g entry m) (issued : Nat) :
    ∃ u next, LinkUnit.decode (marshal ((n.image d g entry runId).listing
          (ms.map fun m => position (number n.members m)))) issued = (.ok u, next) ∧
      u.runId = runId ∧ u.linked = true ∧ u.reachable = ms.map (number n.members) ∧
      (u.code.map (·.1)).Nodup ∧
      u.Restores (number n.classes) (number n.members) (number n.blocks) d g code entry := by
  obtain ⟨g', bs', hdecode, hall⟩ := hn.decode_unit hp hid issued
  have hsize : (n.declarations d).members.size = n.members.length := by simp [declarations]
  have hreach : decodeReachable (n.declarations d).members.size
      (ms.map fun m => position (number n.members m)) = .ok (ms.map (number n.members)) :=
    decodeReachable_positions (hn.declarations_limit hp).2 fun m hm =>
      hsize ▸ hn.member_lt (hms m hm)
  have hlength : ms.length ≤ n.members.length :=
    (List.subperm_of_subset hnodup fun m hm => (hn.members m).mpr (hms m hm)).length_le
  have hfits : ((n.image d g entry runId).listing
      (ms.map fun m => position (number n.members m))).Fits :=
    (hn.fits hp hid).listing (by simpa using hlength.trans (hn.members_length hp))
  refine ⟨{ n.unit d g entry runId g' bs' with
      linked := true
      reachable := ms.map (number n.members) }, g'.issued, decode_marshal hfits ?_, rfl, rfl, rfl,
    hn.registry_keys, (hn.restores hp hall).listing _⟩
  rw [normal_listing]
  exact Image.decode_listing hdecode hreach

end

end Numbering

namespace Program

section
variable {d : Declarations} {g g' : Graph} {code : Registry} {entry : MemberId} {p : Program}

theorem create_ok (h : create code g (some entry) = (.ok p, g')) :
    cleanup code g { entry } = ⟨g', p, none⟩ := by
  rw [create_some] at h
  cases hclean : cleanup code g { entry } with
  | mk k q failure =>
    rw [hclean] at h
    cases failure with
    | some e => simp at h
    | none =>
      obtain ⟨hq, rfl⟩ := Prod.mk.inj h
      obtain rfl := Except.ok.inj hq
      rfl

theorem exists_finished (hp : code.Portable d g entry)
    (hcreate : create code g (some entry) = (.ok p, g')) :
    ∃ root t count, p = ⟨entry, t.reachable, count⟩ ∧ code.body? entry = some root ∧
      Sweep.Ends code (.start g' entry root) (.ok t) ∧ t.Finished d code g' entry := by
  obtain ⟨m, ms, count⟩ := p
  have hclean := create_ok hcreate
  have hentry := entry_cleanup code g { entry }
  have hprune := cleanup_prunes code g { entry }
  obtain ⟨hok, hreach, -⟩ := again_of_cleanup (p := { entry }) (congrArg Cleaned.failure hclean)
  rw [hclean] at hentry hprune hok hreach
  obtain rfl : m = entry := hentry
  obtain ⟨root, t, hroot, hends⟩ := ends_of_cleanup hok
  rw [Cleaned.again, (cleanup_of_ends hroot hends).1] at hreach
  obtain rfl : t.reachable = ms := hreach
  obtain ⟨hsound, hcomplete, hstack⟩ := hends.complete hroot
  exact ⟨root, t, count, rfl, hroot, hends, hp.pruned hprune (List.Sublist.refl code),
    ⟨root, hroot⟩, hsound, hcomplete, hstack⟩

end

end Program

namespace Image

open Encoder (position)

section
variable {d : Declarations} {g : Graph} {code : Registry} {entry : MemberId} {runId : RunId}

/-- The image of a linked program holds what the walk found and no more. -/
theorem ofProgram_eq {t : Sweep} (h : t.Finished d code g entry) (count : Nat) (runId : RunId) :
    ∃ n : Numbering, n.Covers d g (code.restrict t.reachable) entry ∧
      ofProgram d g code ⟨entry, t.reachable, count⟩ runId =
        .ok ((n.image d g entry runId).listing
          (t.reachable.map fun m => position (number n.members m))) := by
  have horder : ∀ m, m ∈ (t.reachable.filter d.isCode).filter (fun m => (code.find m).isSome) ↔
      ∃ root, (code.restrict t.reachable).body? m = some root := by
    intro m
    rw [List.mem_filter, List.mem_filter, ← h.mem_keys]
    refine ⟨And.left, fun hbody => ⟨hbody, ?_⟩⟩
    obtain ⟨root, hroot⟩ := hbody
    exact h.portable.rooted.find_isSome.mpr ⟨root, (Registry.body?_restrict.mp hroot).2⟩
  obtain ⟨bodies, hbodies, hmem⟩ := exists_bodies_of_order horder
  have hnodup : (bodies.map (·.1)).Nodup := hbodies ▸ (h.sound.nodup.filter _).filter _
  obtain ⟨n, hn, himage⟩ := image_eq h.portable_restrict runId hnodup hmem
    (fun m root hbody => (Registry.body?_restrict.mp ((hmem m root).mp hbody)).2)
    (show ∀ m ∈ (some t.reachable).getD [], _ from fun m hm => h.listsMember hm)
  rw [hbodies] at himage
  exact ⟨n, hn, himage⟩

/-- A linked program reads back as it was linked. It is linked in full, its members print as before
and in the same order, there is one body for each method or constructor among them and no other, and
linking it once more finds these members again. -/
theorem decode_encodeProgram {p : Program} {g' : Graph} (hp : code.Portable d g entry)
    (hid : runId.bytes.length = 16)
    (hcreate : Program.create code g (some entry) = (.ok p, g')) :
    ∃ bytes names, encodeProgram d g' code p runId = .ok bytes ∧
      p.reachable.mapM d.signature = .ok names ∧
      ∀ issued, ∃ u next, LinkUnit.decode bytes issued = (.ok u, next) ∧
        u.linked = true ∧ u.runId = runId ∧
        u.reachable.mapM u.declarations.signature = .ok names ∧
        u.code.Rooted ∧ (u.code.map (·.1)).Perm (u.reachable.filter u.declarations.isCode) ∧
        ∃ p', (Program.create u.code u.graph (some u.entry)).1 = .ok p' ∧
          p'.reachable = u.reachable := by
  obtain ⟨root, t, count, rfl, hroot, hends, ht⟩ := Program.exists_finished hp hcreate
  obtain ⟨n, hn, himage⟩ := ofProgram_eq ht count runId
  have hpart := ht.portable_restrict
  have hlists : ∀ m ∈ t.reachable, (code.restrict t.reachable).ListsMember g' entry m :=
    fun m hm => ht.listsMember hm
  obtain ⟨names, hnames⟩ := Image.exists_mapM.mpr fun m hm => hpart.signature_ok (hlists m hm)
  refine ⟨_, names, by rw [encodeProgram, himage]; rfl, hnames, fun issued => ?_⟩
  obtain ⟨u, next, hdecode, hrun, hlinked, hreach, hkeys, hu⟩ :=
    hn.decode_listing hpart hid ht.sound.nodup hlists issued
  obtain ⟨names', hprint, hprint'⟩ := hu.signatures hpart hlists
  obtain rfl := Except.ok.inj (hprint.symm.trans hnames)
  have hmain := Registry.body?_restrict.mpr ⟨ht.sound.entry_mem, hroot⟩
  obtain ⟨hok, -⟩ := hu.create_of_ends (hu.mirrors hpart ht.find_asked) hmain hroot hends
  refine ⟨u, next, hdecode, hlinked, hrun, ?_, hu.rooted hpart hkeys, ?_, _, (hok t rfl).2, ?_⟩
  · rw [hreach, hprint']
  · rw [hreach]
    exact hu.keys_perm hpart hkeys ht.sound.nodup hlists fun _ => ht.mem_keys
  · rw [hreach]

end

theorem decode_encodeProgram_shared :
    sharedCode.Portable sharedDeclarations sharedGraph 0 ∧ RunId.zero.bytes.length = 16 ∧
      Program.create sharedCode sharedGraph (some 0) =
        (.ok ⟨0, [0, 2], 2⟩, (Program.create sharedCode sharedGraph (some 0)).2) ∧
      ∃ bytes, encodeProgram sharedDeclarations (Program.create sharedCode sharedGraph (some 0)).2
          sharedCode ⟨0, [0, 2], 2⟩ .zero = .ok bytes ∧
        ∃ u next p, LinkUnit.decode bytes 0 = (.ok u, next) ∧ u.linked = true ∧
          (u.code.map (·.1)).Perm (u.reachable.filter u.declarations.isCode) ∧
          (Program.create u.code u.graph (some u.entry)).1 = .ok p ∧
          p.reachable.mapM u.declarations.signature =
            .ok ["Shape.area(array of Base):float", "Base.next:Shape"] := by
  have hcreate : Program.create sharedCode sharedGraph (some 0) =
      (.ok ⟨0, [0, 2], 2⟩, (Program.create sharedCode sharedGraph (some 0)).2) :=
    Prod.ext (by decide) rfl
  have hprinted : [0, 2].mapM sharedDeclarations.signature =
      .ok ["Shape.area(array of Base):float", "Base.next:Shape"] := by
    decide
  have hp := sharedCode_storePortable.portable
  have hid : RunId.zero.bytes.length = 16 := by decide
  obtain ⟨bytes, names, hbytes, hnames, h⟩ := decode_encodeProgram hp hid hcreate
  obtain rfl := Except.ok.inj (hprinted.symm.trans hnames)
  obtain ⟨u, next, hdecode, hlinked, -, hprint, -, hkeys, p, hagain, hreach⟩ := h 0
  exact ⟨hp, hid, hcreate, bytes, hbytes, u, next, p, hdecode, hlinked, hkeys, hagain,
    hreach ▸ hprint⟩

end Image

end Linkage
