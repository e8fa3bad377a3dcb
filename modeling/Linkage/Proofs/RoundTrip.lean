import Linkage.Proofs.Accepted
import Linkage.Proofs.Restored
import Linkage.Proofs.Writing

/-!
# Images round trip

A portable program can be written as an image, and what is read back from the bytes is the same
program: its classes, members and blocks under new numbers, and nothing else.
-/

namespace Linkage

-- ---------------------------------------------------------------------------
-- The order of bodies
-- ---------------------------------------------------------------------------

section
variable {d : Declarations} {g : Graph} {code : Registry} {entry m : MemberId}

theorem Declarations.typeName_ok {t : Ty} (ht : t.isWellFormed)
    (hc : ∀ c ∈ t.class?, ∃ k, d.classes[c]? = some k) : ∃ name, d.typeName t = .ok name := by
  induction t with
  | absent => simp [Ty.isWellFormed] at ht
  | primitive p => exact ⟨p.name, rfl⟩
  | object c =>
    obtain ⟨k, hk⟩ := hc c rfl
    exact ⟨k.name, by simp [typeName, className, hk]⟩
  | array t ih =>
    obtain ⟨name, hname⟩ := ih ht hc
    exact ⟨_, by rw [typeName, hname]; rfl⟩

theorem Declarations.signature_ok {k : Member} (hk : d.members[m]? = some k)
    (hclass : ∀ c, k.Mentions c → ∃ k', d.classes[c]? = some k')
    (htypes : ∀ t ∈ k.types, t.isWellFormed) : ∃ name, d.signature m = .ok name := by
  obtain ⟨owner, howner⟩ := hclass k.owner (.inl rfl)
  have hparam : ∀ t ∈ k.params, ∃ name, d.typeName t = .ok name := by
    intro t ht
    have hmem := Image.params_subset_types k ht
    exact Declarations.typeName_ok (htypes t hmem) fun c hc => hclass c (.inr ⟨t, hmem, hc⟩)
  obtain ⟨names, hnames⟩ := Image.exists_mapM.mpr hparam
  have hname : d.className k.owner = .ok owner.name := by simp [Declarations.className, howner]
  rw [Declarations.signature, hk]
  cases k with
  | field c name t =>
    replace hname : d.className c = _ := hname
    exact ⟨_, by simp only [Declarations.memberName, hname]; rfl⟩
  | method c name ps t =>
    replace hname : d.className c = _ := hname
    replace hnames : ps.mapM d.typeName = _ := hnames
    exact ⟨_, by simp only [Declarations.memberName, Declarations.typeNames, hname, hnames]; rfl⟩
  | ctor c ps =>
    replace hname : d.className c = _ := hname
    replace hnames : ps.mapM d.typeName = _ := hnames
    exact ⟨_, by simp only [Declarations.memberName, Declarations.typeNames, hname, hnames]; rfl⟩

theorem Registry.Portable.signature_ok (hp : code.Portable d g entry)
    (hm : code.ListsMember g entry m) : ∃ name, d.signature m = .ok name := by
  obtain ⟨k, hk, hport⟩ := hp.members m hm
  refine Declarations.signature_ok hk (fun c hc => ?_) fun t ht => (hport.types t ht).1
  exact (hp.classes c (hm.mentions hk hc)).imp fun _ h => h.1

theorem Declarations.bySignature_ok {ms : List MemberId}
    (h : ∀ m ∈ ms, ∃ name, d.signature m = .ok name) :
    ∃ sorted, d.bySignature ms = .ok sorted := by
  have hname : ∀ m ∈ ms, ∃ named, ((d.signature m).map fun name => (name, m)) = .ok named := by
    intro m hm
    obtain ⟨name, hname⟩ := h m hm
    exact ⟨(name, m), by rw [hname]; rfl⟩
  obtain ⟨named, hnamed⟩ := Image.exists_mapM.mpr hname
  unfold bySignature
  split
  · exact ⟨[], rfl⟩
  · exact ⟨_, rfl⟩
  · exact ⟨_, by rw [hnamed]; rfl⟩

theorem Declarations.named_of_mapM {ms : List MemberId} {named : List (String × MemberId)}
    (h : (ms.mapM fun m => (d.signature m).map fun name => (name, m)) = .ok named) :
    ms = named.map (·.2) ∧ ∀ p ∈ named, d.signature p.2 = .ok p.1 := by
  have hall := Image.forall₂_of_mapM h
  have hpair : ∀ m p, ((d.signature m).map fun name => (name, m)) = .ok p →
      m = p.2 ∧ d.signature p.2 = .ok p.1 := by
    intro m p hm
    cases hs : d.signature m with
    | error f => simp [hs, Except.map] at hm
    | ok name =>
      simp only [hs, Except.map, Except.ok.injEq] at hm
      subst hm
      exact ⟨rfl, hs⟩
  refine ⟨Image.Encoder.eq_map_of_forall₂ hall.flip fun p m hm => (hpair m p hm).1, ?_⟩
  intro p hp
  obtain ⟨m, -, hm⟩ := exists_of_forall₂ hall.flip hp
  exact (hpair m p hm).2

theorem Declarations.bySignature_perm {ms sorted : List MemberId}
    (h : d.bySignature ms = .ok sorted) : sorted.Perm ms := by
  unfold bySignature at h
  split at h
  · obtain rfl := Image.pure_ok.mp h
    exact .refl _
  · obtain rfl := Image.pure_ok.mp h
    exact .refl _
  · obtain ⟨named, hnamed, h⟩ := Image.bind_ok.mp h
    obtain rfl := Image.pure_ok.mp h
    rw [(named_of_mapM hnamed).1]
    exact (List.mergeSort_perm named _).map _

theorem Registry.find_isSome : (code.find m).isSome = true ↔ m ∈ code.map (·.1) := by
  rw [Registry.find, List.lookup_isSome_iff]
  simp

theorem Registry.ListsMember.of_mem {g : Graph} (hm : m ∈ code.map (·.1)) :
    code.ListsMember g entry m :=
  .body (find_isSome.mpr hm)

theorem Registry.ordered_ok (entry : MemberId)
    (hsigned : ∀ m ∈ code.map (·.1), ∃ name, d.signature m = .ok name) :
    ∃ order, code.ordered d (some entry) = .ok order := by
  have hnames : ∀ m ∈ (code.map (·.1)).filter fun m => some m != some entry,
      ∃ name, d.signature m = .ok name := fun m hm => hsigned m (List.mem_of_mem_filter hm)
  obtain ⟨sorted, hsorted⟩ := Declarations.bySignature_ok hnames
  rw [Registry.ordered, hsorted]
  exact ⟨_, rfl⟩

theorem Registry.ordered_perm (hkeys : (code.map (·.1)).Nodup)
    (h : code.ordered d (some entry) = .ok order) : order.Perm (code.map (·.1)) := by
  obtain ⟨sorted, hsorted, h⟩ := Image.bind_ok.mp h
  have hperm := Declarations.bySignature_perm hsorted
  have hother : (code.map (·.1)).filter (fun m => some m != some entry) =
      (code.map (·.1)).erase entry := by
    rw [hkeys.erase_eq_filter]
    exact List.filter_congr fun m _ => by simp [bne]
  rw [hother] at hperm
  obtain rfl := Image.pure_ok.mp h
  split
  · rename_i hentry
    exact (hperm.cons entry).trans (List.perm_cons_erase (Registry.find_isSome.mp hentry)).symm
  · rename_i hentry
    rwa [List.erase_of_not_mem fun h => hentry (Registry.find_isSome.mpr h)] at hperm

end

-- ---------------------------------------------------------------------------
-- Writing
-- ---------------------------------------------------------------------------

namespace Image

open Encoder

section
variable {E : Prop} {d : Declarations} {g : Graph} {code full : Registry} {entry : MemberId}
  {runId : RunId} {bs : List BlockRef} {bodies : List (MemberId × BlockRef)}
  {listed : List MemberId} {s : Encoder}

theorem placeable_of_complete (hE : ¬ code.Complete d g entry → E) :
    Placeable E d {c | code.ListsClass d g entry c} {m | code.ListsMember g entry m} where
  classes c hc hnone := hE fun h => by
    obtain ⟨k, hk⟩ := h.classes c hc
    simp [hnone] at hk
  supers c hc p hsuper := .super hc hsuper
  members m hm hnone := hE fun h => by
    obtain ⟨k, hk⟩ := h.members m hm
    simp [hnone] at hk
  mentions m hm k hk c hc := hm.mentions hk hc

theorem writable_of_complete (hE : ¬ code.Complete d g entry → E) :
    Writable E d g {c | code.ListsClass d g entry c} {m | code.ListsMember g entry m}
      {r | code.ListsBlock g r} where
  blocks r hr hnone := hE fun h => by
    obtain ⟨b, hb, -⟩ := h.blocks r hr
    simp [hnone] at hb
  complete r hr b hb hno := hE fun h => by
    obtain ⟨b', hb', hcomplete⟩ := h.blocks r hr
    obtain rfl := Option.some.inj (hb.symm.trans hb')
    exact hno hcomplete
  edges r hr q hq := hr.reaches (.single hq)
  types r hr b hb i hi c hc := .body hr hb hi hc
  names r hr b hb i hi m hm := .named hr hb hi hm

/-- Nothing but what has to be listed is placed, and all of it: the tables are closed under
everything that leads from one thing to another. -/
theorem covers_of_laid
    (h : Laid d g {c | code.ListsClass d g entry c} {m | code.ListsMember g entry m}
      {r | code.ListsBlock g r} bs s)
    (hrooted : ∀ m, (code.find m).isSome → ∃ root, code.body? m = some root)
    (hentry : entry ∈ s.memberIds) (hnodup : (bodies.map (·.1)).Nodup)
    (hbodies : ∀ m root, (m, root) ∈ bodies ↔ code.body? m = some root)
    (hplaced : ∀ m root, (m, root) ∈ bodies → m ∈ s.memberIds ∧ root ∈ bs) :
    Numbering.Covers ⟨s.classIds, s.memberIds, bs, bodies⟩ d g code entry := by
  -- blocks before members and members before classes, since each is found in the one before
  have hblocks : ∀ r, code.ListsBlock g r → r ∈ bs := by
    rintro r ⟨m, root, hroot, hpath⟩
    induction hpath with
    | refl => exact (hplaced m root ((hbodies m root).mpr hroot)).2
    | tail _ hedge ih => exact h.closed _ ih _ hedge
  have hmembers : ∀ m, code.ListsMember g entry m → m ∈ s.memberIds := by
    intro m hm
    cases hm with
    | entry => exact hentry
    | body hfind =>
      obtain ⟨root, hroot⟩ := hrooted m hfind
      exact (hplaced m root ((hbodies m root).mpr hroot)).1
    | named hr hb hi hname =>
      obtain ⟨row, -, hw⟩ := exists_of_forall₂ h.rows (hblocks _ hr)
      exact hw.names _ (Graph.blockAt_eq hb ▸ hi) m hname
  have hclasses : ∀ c, code.ListsClass d g entry c → c ∈ s.classIds := by
    intro c hc
    induction hc with
    | owner hm hk =>
      exact h.tables.mentions _ (hmembers _ hm) _ (Declarations.memberAt_eq hk ▸ .inl rfl)
    | signature hm hk ht hc =>
      exact h.tables.mentions _ (hmembers _ hm) _
        (Declarations.memberAt_eq hk ▸ .inr ⟨_, ht, hc⟩)
    | body hr hb hi hc =>
      obtain ⟨row, -, hw⟩ := exists_of_forall₂ h.rows (hblocks _ hr)
      exact hw.types _ (Graph.blockAt_eq hb ▸ hi) _ hc
    | super _ hsuper ih => exact h.tables.supers _ ih _ hsuper
  exact ⟨h.tables.classesNodup, h.tables.membersNodup, h.positioned.nodup, hnodup,
    fun c => ⟨h.tables.classesIn c, hclasses c⟩, fun m => ⟨h.tables.membersIn m, hmembers m⟩,
    fun r => ⟨h.blocksIn r, hblocks r⟩, hbodies⟩

theorem exists_bodies_of_order {order : List MemberId}
    (horder : ∀ m, m ∈ order ↔ ∃ root, code.body? m = some root) :
    ∃ bodies : List (MemberId × BlockRef), bodies.map (·.1) = order ∧
      ∀ m root, (m, root) ∈ bodies ↔ code.body? m = some root := by
  refine ⟨order.map fun m => (m, (code.body? m).getD 0), by simp [Function.comp_def],
    fun m root => ?_⟩
  simp only [List.mem_map, Prod.mk.injEq]
  constructor
  · rintro ⟨m, hm, rfl, rfl⟩
    obtain ⟨root, hroot⟩ := (horder m).mp hm
    rw [hroot, Option.getD_some]
  · intro hroot
    exact ⟨m, (horder m).mpr ⟨root, hroot⟩, rfl, by rw [hroot, Option.getD_some]⟩

theorem exists_bodies (hp : code.Portable d g entry) :
    ∃ bodies : List (MemberId × BlockRef), code.ordered d (some entry) = .ok (bodies.map (·.1)) ∧
      (bodies.map (·.1)).Nodup ∧ ∀ m root, (m, root) ∈ bodies ↔ code.body? m = some root := by
  obtain ⟨order, horder⟩ := Registry.ordered_ok entry fun m hm =>
    hp.signature_ok (.of_mem hm)
  have hperm := Registry.ordered_perm hp.keys horder
  obtain ⟨bodies, rfl, hbodies⟩ := exists_bodies_of_order fun m => show m ∈ order ↔ _ by
    rw [hperm.mem_iff, ← Registry.find_isSome, hp.rooted.find_isSome]
  exact ⟨bodies, horder, hperm.nodup_iff.mpr hp.keys, hbodies⟩

theorem positions_yields (hd : Placeable E d C M) (h : Tables d C M s) {ms : List MemberId}
    (hms : ∀ m ∈ ms, m ∈ M) :
    Yields E (ms.mapM fun m => return position (← placeMember d (some m))) s fun rows s' =>
      Step d C M s s' ∧ ∀ μ, Agrees μ s'.memberIds → rows = ms.map fun m => position (μ m) := by
  refine (yields_mapM (R := Step d C M) (I := Tables d C M)
    (Q := fun m row s => ∀ μ, Agrees μ s.memberIds → row = position (μ m))
    (fun _ => .refl) (fun _ _ _ => .trans) (fun _ _ hs => hs.tables)
    (fun _ _ _ _ hrow hs μ hμ => hrow μ (hμ.mono hs.memberIds)) ?_ h).mono ?_
  · intro m hm s h
    refine .bind (placeMember_yields hd h (hms m hm)) ?_
    rintro i s' ⟨hstep, hi⟩
    exact .pure ⟨hstep, fun μ hμ => by rw [hμ i m hi]⟩
  · rintro rows s' ⟨hstep, hall⟩
    exact ⟨hstep, fun μ hμ => eq_map_of_forall₂ hall fun m row hrow => hrow μ hμ⟩

/-- What has been written once all bodies are: their blocks, and rows for everything listed, in the
numbers that the tables give. -/
structure Wrote (d : Declarations) (g : Graph) (code full : Registry) (entry : MemberId)
    (bodies : List (MemberId × BlockRef)) (listed : List MemberId) (bs : List BlockRef)
    (out : Nat × List Body × List Int64) (s : Encoder) : Prop where
  laid : Laid d g {c | code.ListsClass d g entry c} {m | code.ListsMember g entry m}
    {r | code.ListsBlock g r} bs s
  main : entry ∈ s.memberIds
  placed : ∀ m root, (m, root) ∈ bodies → full.body? m = some root ∧ m ∈ s.memberIds ∧ root ∈ bs
  entryRow : out.1 = number s.memberIds entry
  bodyRows : out.2.1 = bodies.map (bodyRow (number s.memberIds) (number bs))
  listedRows : out.2.2 = listed.map fun m => position (number s.memberIds m)

/-- The bodies may be taken from a larger registry. -/
theorem write_yields (hE : ¬ code.Complete d g entry → E)
    (hbodies : ∀ m root, (m, root) ∈ bodies → code.ListsMember g entry m ∧
      ((full.body? m = some root ∧ code.ListsBlock g root) ∨ (full.body? m = none ∧ E)))
    (hlisted : ∀ m ∈ listed, code.ListsMember g entry m) :
    Yields E (write d g full (some entry) (bodies.map (·.1)) listed) (start g) fun out s =>
      ∃ bs, Wrote d g code full entry bodies listed bs out s := by
  have hd := placeable_of_complete hE
  have hB := writable_of_complete hE
  have hstart := Laid.start d g {c | code.ListsClass d g entry c} {m | code.ListsMember g entry m}
    {r | code.ListsBlock g r}
  refine .bind (placeMember_yields hd hstart.tables .entry) ?_
  rintro i s₁ ⟨hstep, hi⟩
  refine .bind (placeBodies_yields hd hB (hstart.step hstep) hbodies) ?_
  rintro rows s₂ ⟨bs, -, hgrows, hlaid₂, hplaced, hrows⟩
  refine .bind (positions_yields hd hlaid₂.tables hlisted) ?_
  rintro positions s ⟨hstep', hpositions⟩
  have hlaid := hlaid₂.step hstep'
  have hμ := agrees_number hlaid.tables.membersNodup
  have hβ := agrees_number hlaid.positioned.nodup
  have hgrows' := hgrows.memberIds.trans hstep'.memberIds
  refine .pure ⟨bs, hlaid, hgrows'.subset (List.mem_of_getElem? hi), fun m root hmem => ?_,
    (hμ.mono hgrows' i entry hi).symm, hrows _ _ (hμ.mono hstep'.memberIds) hβ, hpositions _ hμ⟩
  obtain ⟨hbody, hm, hroot⟩ := hplaced m root hmem
  exact ⟨hbody, hstep'.memberIds.subset hm, hroot⟩

theorem image_of_wrote {out : Nat × List Body × List Int64} {listed : Option (List MemberId)}
    (hrun : write d g full (some entry) (bodies.map (·.1)) (listed.getD []) (start g) =
      .ok (out, s))
    (h : Wrote d g code full entry bodies (listed.getD []) bs out s) (runId : RunId) :
    Encoder.image d g full (some entry) (bodies.map (·.1)) runId listed =
      .ok { Numbering.image ⟨s.classIds, s.memberIds, bs, bodies⟩ d g entry runId with
        linked := listed.isSome
        reachable := nonempty
          ((listed.getD []).map fun m => position (number s.memberIds m)) } := by
  have htables := h.laid.tables
  have hκ := agrees_number htables.classesNodup
  have hμ := agrees_number htables.membersNodup
  have hβ := agrees_number h.laid.positioned.nodup
  have hblocks := eq_map_of_forall₂ h.laid.rows fun r row hw => hw.row _ _ _ hκ hμ hβ
  obtain ⟨i, rows, positions⟩ := out
  have hentry := h.entryRow
  have hrows := h.bodyRows
  have hpositions := h.listedRows
  simp only at hentry hrows hpositions
  simp only [Encoder.image, StateT.run, hrun, ok_bind, Numbering.image, hentry, hrows, hpositions,
    htables.classRows _ hκ, htables.memberRows _ hκ, hblocks]
  rfl

theorem image_eq (hp : code.Portable d g entry) (runId : RunId) (hnodup : (bodies.map (·.1)).Nodup)
    (hbodies : ∀ m root, (m, root) ∈ bodies ↔ code.body? m = some root)
    (hfull : ∀ m root, (m, root) ∈ bodies → full.body? m = some root)
    {listed : Option (List MemberId)} (hlisted : ∀ m ∈ listed.getD [], code.ListsMember g entry m) :
    ∃ n : Numbering, n.Covers d g code entry ∧
      Encoder.image d g full (some entry) (bodies.map (·.1)) runId listed =
        .ok { n.image d g entry runId with
          linked := listed.isSome
          reachable := nonempty
            ((listed.getD []).map fun m => position (number n.members m)) } := by
  have hall : ∀ m root, (m, root) ∈ bodies → code.ListsMember g entry m ∧
      ((full.body? m = some root ∧ code.ListsBlock g root) ∨ (full.body? m = none ∧ False)) := by
    intro m root hmem
    have hbody := (hbodies m root).mp hmem
    exact ⟨.body (hp.rooted.find_isSome.mpr ⟨root, hbody⟩),
      .inl ⟨hfull m root hmem, m, root, hbody, .refl⟩⟩
  obtain ⟨out, s, hrun, bs, hwrote⟩ :=
    (write_yields (fun hno => hno hp.complete) hall hlisted).exists_ok
  have hcovers := covers_of_laid hwrote.laid (fun m => hp.rooted.find_isSome.mp) hwrote.main hnodup
    hbodies fun m root hmem => (hwrote.placed m root hmem).2
  exact ⟨_, hcovers, image_of_wrote hrun hwrote runId⟩

theorem ofCode_eq (hp : code.Portable d g entry) (runId : RunId) :
    ∃ n : Numbering, n.Covers d g code entry ∧
      ofCode d g code (some entry) runId = .ok (n.image d g entry runId) := by
  obtain ⟨bodies, horder, hnodup, hbodies⟩ := exists_bodies hp
  have hnone : ∀ m ∈ (none : Option (List MemberId)).getD [], code.ListsMember g entry m := by simp
  obtain ⟨n, hcovers, himage⟩ := image_eq hp runId hnodup hbodies
    (fun m root hmem => (hbodies m root).mp hmem) hnone
  refine ⟨n, hcovers, ?_⟩
  rw [ofCode, horder]
  exact himage

theorem rooted_of_bodies (hkeys : (code.map (·.1)).Nodup)
    (h : ∀ m ∈ code.map (·.1), ∃ root, code.body? m = some root) : code.Rooted := by
  intro body hbody
  obtain ⟨root, hroot⟩ := h body.1 (List.mem_map_of_mem hbody)
  have hfind := (Numbering.find_eq_some_iff hkeys).mpr hbody
  rw [Registry.body?_eq_some, hfind] at hroot
  rw [Option.some.inj hroot, Option.isSome_some]

/-- Where an image comes out, every body that was asked for had a root and was written. -/
theorem exists_wrote {order : List MemberId} {img : Image}
    (horder : ∀ m, m ∈ order ↔ (code.find m).isSome = true)
    (h : Encoder.image d g code (some entry) order runId none = .ok img) :
    ∃ bodies bs out s, bodies.map (·.1) = order ∧
      (∀ m root, (m, root) ∈ bodies ↔ code.body? m = some root) ∧
      Wrote d g code code entry bodies [] bs out s ∧
      img = Numbering.image ⟨s.classIds, s.memberIds, bs, bodies⟩ d g entry runId := by
  -- a body without a root would not have been written; a number stands in until that is known
  let bodies := order.map fun m => (m, (code.body? m).getD 0)
  have hfst : bodies.map (·.1) = order := by simp [bodies, Function.comp_def]
  have hbodies : ∀ m root, (m, root) ∈ bodies → code.ListsMember g entry m ∧
      ((code.body? m = some root ∧ code.ListsBlock g root) ∨ (code.body? m = none ∧ True)) := by
    intro m root hbody
    obtain ⟨m', hm, heq⟩ := List.mem_map.mp hbody
    obtain ⟨rfl, rfl⟩ := Prod.mk.inj heq
    refine ⟨.body ((horder m').mp hm), ?_⟩
    cases hroot : code.body? m' with
    | none => exact .inr ⟨rfl, trivial⟩
    | some root => exact .inl ⟨rfl, m', root, hroot, .refl⟩
  rw [← hfst] at h
  obtain ⟨⟨out, s⟩, hrun, -⟩ := bind_ok.mp h
  have hnone : ∀ m ∈ (none : Option (List MemberId)).getD [], code.ListsMember g entry m := by simp
  obtain ⟨bs, hwrote⟩ := (write_yields (fun _ => trivial) hbodies hnone).of_ok hrun
  have himage : Encoder.image d g code (some entry) (bodies.map (·.1)) runId none = _ :=
    image_of_wrote hrun hwrote runId
  refine ⟨bodies, bs, out, s, hfst, fun m root => ⟨fun hbody => (hwrote.placed m root hbody).1,
    fun hbody => ?_⟩, hwrote, Except.ok.inj (h.symm.trans himage)⟩
  have hm := (horder m).mpr (by simp [Registry.body?_eq_some.mp hbody])
  exact List.mem_map.mpr ⟨m, hm, by simp [hbody]⟩

theorem complete_of_laid (hrooted : code.Rooted)
    (h : Laid d g {c | code.ListsClass d g entry c} {m | code.ListsMember g entry m}
      {r | code.ListsBlock g r} bs s)
    (hcovers : Numbering.Covers ⟨s.classIds, s.memberIds, bs, bodies⟩ d g code entry) :
    code.Complete d g entry where
  rooted := hrooted
  classes c hc := h.tables.classesThere c ((hcovers.classes c).mpr hc)
  members m hm := h.tables.membersThere m ((hcovers.members m).mpr hm)
  blocks r hr := by
    obtain ⟨row, -, hw⟩ := exists_of_forall₂ h.rows ((hcovers.blocks r).mpr hr)
    exact hw.there

/-- What was written is all there, and is written in the numbers of a numbering of it. -/
theorem ofCode_ok {img : Image} (hkeys : (code.map (·.1)).Nodup)
    (h : ofCode d g code (some entry) runId = .ok img) :
    code.Complete d g entry ∧ ∃ n : Numbering, n.Covers d g code entry ∧
      code.ordered d (some entry) = .ok (n.bodies.map (·.1)) ∧ img = n.image d g entry runId := by
  cases horder : code.ordered d (some entry) with
  | error f => simp [ofCode, horder] at h
  | ok order =>
    rw [ofCode, horder] at h
    have hperm := Registry.ordered_perm hkeys horder
    have hmem : ∀ m, m ∈ order ↔ (code.find m).isSome = true := fun m => by
      rw [hperm.mem_iff, Registry.find_isSome]
    obtain ⟨bodies, bs, out, s, rfl, hbodies, hwrote, rfl⟩ := exists_wrote hmem h
    have hroot : ∀ m ∈ bodies.map (·.1), ∃ root, code.body? m = some root := by
      intro m hm
      obtain ⟨body, hbody, rfl⟩ := List.mem_map.mp hm
      exact ⟨body.2, (hbodies _ _).mp hbody⟩
    have hcovers := covers_of_laid hwrote.laid (fun m hm => hroot m ((hmem m).mpr hm)) hwrote.main
      (hperm.nodup_iff.mpr hkeys) hbodies fun m root hbody => (hwrote.placed m root hbody).2
    have hrooted := rooted_of_bodies hkeys fun m hm => hroot m (hperm.mem_iff.mpr hm)
    exact ⟨complete_of_laid hrooted hwrote.laid hcovers, _, hcovers, rfl, rfl⟩

/-- Reading undoes writing. A portable program is written, and what is read from its bytes is that
program under new numbers, which do not depend on the identities its blocks are given. -/
theorem decode_encodeCode (hp : code.Portable d g entry) (hid : runId.bytes.length = 16) :
    ∃ bytes, encodeCode d g code (some entry) runId = .ok bytes ∧
      ∃ κ μ β, ∀ issued, ∃ u next, LinkUnit.decode bytes issued = (.ok u, next) ∧
        u.runId = runId ∧ u.linked = false ∧ u.reachable = [] ∧
        u.Restores κ μ β d g code entry := by
  obtain ⟨n, hn, hwrite⟩ := ofCode_eq hp runId
  refine ⟨marshal (n.image d g entry runId), by rw [encodeCode, hwrite]; rfl,
    number n.classes, number n.members, number n.blocks, fun issued => ?_⟩
  obtain ⟨u, next, hdecode, hu⟩ := hn.decode hp hid issued
  refine ⟨u, next, ?_, hu⟩
  rw [LinkUnit.decode, unmarshal_marshal (hn.fits hp hid)]
  simp only [hdecode]

end

def sharedDeclarations : Declarations where
  classes := #[⟨"Base", none⟩, ⟨"Shape", some 0⟩]
  members := #[.method 1 "area" [.array (.object 0)] (.primitive .float), .ctor 1 [],
    .field 0 "next" (.object 1)]

/-- Two roots that lead into the same loop, which goes back to one of them. -/
def sharedGraph : Graph where
  blocks := #[
    { id := 0, code := [.load 0 (.object 1), .getField 2, .pop (.object 1)]
      succs := [some 2, some 2], mergeable := true },
    { id := 1, code := [.call 0], succs := [some 2], mergeable := false },
    { id := 2, code := [.const (.primitive .float) (.float ⟨0x8000000000000000⟩), .guard ⟨2⟩
        (.primitive .float)]
      succs := [some 2, some 0], mergeable := false }]
  calls := #[{ callee := some 0, targets := some [some 1, some 0] }]

def sharedCode : Registry := [(1, some 1), (0, some 0)]

theorem sharedCode_storePortable : sharedCode.StorePortable sharedDeclarations sharedGraph 0 := by
  constructor <;> decide

theorem decode_encodeCode_shared :
    sharedCode.Portable sharedDeclarations sharedGraph 0 ∧ RunId.zero.bytes.length = 16 ∧
      ∃ bytes, encodeCode sharedDeclarations sharedGraph sharedCode (some 0) .zero = .ok bytes ∧
        ∃ κ μ β, ∀ issued, ∃ u next, LinkUnit.decode bytes issued = (.ok u, next) ∧
          u.runId = .zero ∧ u.linked = false ∧ u.reachable = [] ∧
          u.Restores κ μ β sharedDeclarations sharedGraph sharedCode 0 :=
  ⟨sharedCode_storePortable.portable, by decide,
    decode_encodeCode sharedCode_storePortable.portable (by decide)⟩

end Image

end Linkage
