import Linkage.Proofs.Mirror
import Linkage.Proofs.RoundTrip

/-!
# Linking what was read back

Linking a program and linking what is read back from its image come to the same: both fail for the
same reason, or both find the same members in the same order.
-/

namespace Linkage

theorem Call.Runs.asks {c : Call} (h : c.Runs code m) : c.Asks m := by
  cases h with
  | target hts hm => exact .target hts hm
  | callee hts hm _ => exact .callee hts hm

theorem Call.Asks.names {c : Call} {calls : Array Call} (h : c.Asks m)
    (hc : calls[site]? = some c) : (Instruction.call site).Names calls m := by
  cases h with
  | target hts hm => exact .target hc (by simpa [Call.targetList, hts] using hm)
  | callee _ hm => exact .callee hc hm

theorem mapM_congr {f f' : α → Except ε β} {xs : List α} (h : ∀ x ∈ xs, f x = f' x) :
    xs.mapM f = xs.mapM f' := by
  induction xs with
  | nil => rfl
  | cons x xs ih =>
    rw [List.mapM_cons, List.mapM_cons, h x List.mem_cons_self,
      ih fun y hy => h y (List.mem_cons_of_mem _ hy)]

theorem DefectKind.text_rename {d d' : Declarations} {kind : DefectKind}
    (h : ∀ caller, kind = .missingCode caller → d'.signature (μ caller) = d.signature caller) :
    (kind.rename μ).text d' = kind.text d := by
  cases kind with
  | missingCode caller =>
    have hname : d'.signatureText (some (μ caller)) = d.signatureText (some caller) := by
      rw [Declarations.signatureText, Declarations.signatureText, h caller rfl]
    exact congrArg (fun name => "call target has no code (called from " ++ name ++ ")") hname
  | noEntry => rfl
  | unresolvedCall => rfl
  | nilSuccessor => rfl
  | emptyBlock => rfl

namespace LinkUnit.Restores

section
variable {κ : ClassId → ClassId} {μ : MemberId → MemberId} {β : BlockRef → BlockRef}
  {d : Declarations} {g : Graph} {code full : Registry} {entry m : MemberId} {u : LinkUnit}

-- ---------------------------------------------------------------------------
-- Signatures
-- ---------------------------------------------------------------------------

theorem className (h : u.Restores κ μ β d g code entry) (hp : code.Portable d g entry)
    (hc : code.ListsClass d g entry c) : u.declarations.className (κ c) = d.className c := by
  obtain ⟨k, hk, -⟩ := hp.classes c hc
  simp [Declarations.className, h.classes c k hc hk, hk]

theorem typeName (h : u.Restores κ μ β d g code entry) (hp : code.Portable d g entry) {t : Ty}
    (ht : ∀ c, t.class? = some c → code.ListsClass d g entry c) :
    u.declarations.typeName (t.rename κ) = d.typeName t := by
  induction t with
  | absent => rfl
  | primitive p => rfl
  | object c => exact h.className hp (ht c rfl)
  | array t ih => rw [Ty.rename, Declarations.typeName, ih ht, Declarations.typeName]

theorem typeText (h : u.Restores κ μ β d g code entry) (hp : code.Portable d g entry) {t : Ty}
    (ht : ∀ c, t.class? = some c → code.ListsClass d g entry c) :
    u.declarations.typeText (t.rename κ) = d.typeText t := by
  have habsent : t.rename κ = .absent ↔ t = .absent := by cases t <;> simp [Ty.rename]
  simp only [Declarations.typeText, habsent, h.typeName hp ht]

theorem typeNames (h : u.Restores κ μ β d g code entry) (hp : code.Portable d g entry)
    {ts : List Ty} (hts : ∀ t ∈ ts, ∀ c, t.class? = some c → code.ListsClass d g entry c) :
    u.declarations.typeNames (ts.map (Ty.rename κ)) = d.typeNames ts := by
  have hnames : ts.mapM (u.declarations.typeName ∘ Ty.rename κ) = ts.mapM d.typeName :=
    mapM_congr fun t ht => h.typeName hp (hts t ht)
  rw [Declarations.typeNames, List.mapM_map, hnames, Declarations.typeNames]

theorem signature (h : u.Restores κ μ β d g code entry) (hp : code.Portable d g entry)
    (hm : code.ListsMember g entry m) : u.declarations.signature (μ m) = d.signature m := by
  obtain ⟨k, hk, -⟩ := hp.members m hm
  have howner := h.className hp (hm.mentions hk (.inl rfl))
  have htype : ∀ t ∈ k.types, ∀ c, t.class? = some c → code.ListsClass d g entry c :=
    fun t ht c hc => hm.mentions hk (.inr ⟨t, ht, hc⟩)
  rw [Declarations.signature, h.members m k hm hk, Declarations.signature, hk]
  cases k with
  | field c name t =>
    replace howner : u.declarations.className (κ c) = d.className c := howner
    have htext := h.typeText hp (htype t List.mem_cons_self)
    simp only [Member.rename, Declarations.memberName, howner, htext]
  | method c name ps t =>
    replace howner : u.declarations.className (κ c) = d.className c := howner
    have htext := h.typeText hp (htype t List.mem_cons_self)
    have hparams := h.typeNames hp fun s hs => htype s (List.mem_cons_of_mem _ hs)
    simp only [Member.rename, Declarations.memberName, howner, htext, hparams]
  | ctor c ps =>
    replace howner : u.declarations.className (κ c) = d.className c := howner
    have hparams : u.declarations.typeNames (ps.map (Ty.rename κ)) = d.typeNames ps :=
      h.typeNames hp htype
    simp only [Member.rename, Declarations.memberName, howner, hparams]

theorem signatures (h : u.Restores κ μ β d g code entry) (hp : code.Portable d g entry)
    {ms : List MemberId} (hms : ∀ m ∈ ms, code.ListsMember g entry m) :
    ∃ names, ms.mapM d.signature = .ok names ∧
      (ms.map μ).mapM u.declarations.signature = .ok names := by
  obtain ⟨names, hnames⟩ := Image.exists_mapM.mpr fun m hm => hp.signature_ok (hms m hm)
  refine ⟨names, hnames, ?_⟩
  rw [List.mapM_map, ← hnames]
  exact mapM_congr fun m hm => h.signature hp (hms m hm)

-- ---------------------------------------------------------------------------
-- Walks
-- ---------------------------------------------------------------------------

theorem sameBody (h : u.Restores κ μ β d g code entry) (hm : code.ListsMember g entry m) :
    code.SameBody μ β u.code m := by
  refine Option.ext fun root' => ?_
  rw [h.registry, Option.map_eq_some_iff]
  constructor
  · rintro ⟨m', root, hfind, heq, rfl⟩
    obtain rfl := h.memberNumbers.injOn (.body (by simp [hfind])) hm heq
    exact ⟨root, hfind, rfl⟩
  · rintro ⟨root, hfind, rfl⟩
    exact ⟨m, root, hfind, rfl, rfl⟩

theorem placeholder_iff {is is' : List Instruction}
    (h : List.Forall₂ (Instruction.Matches κ μ calls calls') is is') :
    is' = [.nop] ↔ is = [.nop] := by
  constructor
  · rintro rfl
    obtain ⟨i, rest, hi, hrest, rfl⟩ := List.forall₂_cons_right_iff.mp h
    obtain rfl := List.forall₂_nil_right_iff.mp hrest
    generalize hnop : Instruction.nop = i' at hi
    cases hi with
    | plain hs => cases i <;> simp [Instruction.rename] at hnop ⊢
    | call _ _ => cases hnop
  · rintro rfl
    obtain ⟨i, rest, hi, hrest, rfl⟩ := List.forall₂_cons_left_iff.mp h
    obtain rfl := List.forall₂_nil_left_iff.mp hrest
    cases hi
    rfl

/-- What was read back is the same to a walk, also to one that uses more bodies, as long as these
are not asked for. -/
theorem mirrors (h : u.Restores κ μ β d g code entry) (hp : code.Portable d g entry)
    (hfull : ∀ {r b site c m}, code.ListsBlock g r → g.blocks[r]? = some b → .call site ∈ b.code →
      g.calls[site]? = some c → c.Asks m → full.find m = code.find m) :
    Graph.Mirrors μ β {m | code.ListsMember g entry m} {r | code.ListsBlock g r} full u.code g
      u.graph where
  block r hr := by
    obtain ⟨b, hb, -⟩ := hp.blocks r hr
    obtain ⟨b', hb', hm⟩ := h.blocks r b hr hb
    refine ⟨b, b', hb, hb', hm.succs, ?_, placeholder_iff hm.code, fun m _ => ?_⟩
    · rw [← List.length_eq_zero_iff, ← hm.code.length_eq, List.length_eq_zero_iff]
    · refine Note.ofCode_rename (f := ⟨some r, m⟩) hm.code fun site c m hi hc hask => ?_
      have hsame := h.sameBody (.named hr hb hi (hask.names hc))
      rwa [Registry.SameBody, ← hfull hr hb hi hc hask] at hsame
  succs r hr q hq := hr.reaches (.single hq)
  notes r hr b hb m _ n hn := by
    obtain ⟨i, hi, hof⟩ := Note.of_mem_ofCode hn
    obtain ⟨m, body⟩ := n
    cases body with
    | none =>
      rcases hof with rfl | rfl
      · exact ⟨.named hr hb hi .get, by simp⟩
      · exact ⟨.named hr hb hi .put, by simp⟩
    | some root =>
      obtain ⟨site, c, rfl, hc, hrun, hfind⟩ := hof
      refine ⟨.named hr hb hi (hrun.asks.names hc), fun q hq => ?_⟩
      cases hq
      rw [hfull hr hb hi hc hrun.asks] at hfind
      exact ⟨m, q, Registry.body?_eq_some.mpr hfind, .refl⟩

end

end LinkUnit.Restores

-- ---------------------------------------------------------------------------
-- Linking
-- ---------------------------------------------------------------------------

namespace Registry.Portable

section
variable {d : Declarations} {g : Graph} {code : Registry} {entry m : MemberId}

theorem lists_of_meets (hm : code.Meets g entry m r) : code.ListsBlock g r := by
  obtain ⟨root, hroot, hpath⟩ := hm.body
  exact ⟨m, root, hroot, hpath⟩

theorem inRange (hp : code.Portable d g entry) : g.InRangeFrom code entry where
  blocks hm := hp.block_lt (lists_of_meets hm)
  calls hm hb hi := by
    obtain ⟨b, hb', hport⟩ := hp.blocks _ (lists_of_meets hm)
    obtain rfl := Option.some.inj (hb'.symm.trans hb)
    obtain ⟨c, hc, -⟩ := (hport.code _ hi).operands
    exact (Array.getElem?_eq_some_iff.mp hc).1

/-- The walk of a portable program comes to an end, and what it fails for is a defect. -/
theorem exists_ends (hp : code.Portable d g entry) (hroot : code.body? entry = some root) :
    ∃ o, Sweep.Ends code (.start g entry root) o ∧
      ∀ e, o = .error e → ∃ s : Sweep, s.Blames code g entry e := by
  obtain ⟨-, -, hfail⟩ := Sweep.run_from (g := g) hroot
  refine ⟨_, (Sweep.ends_of_run (Sweep.sound_start hroot) (Nat.le_add_right _ _)).resolve_right
    fun h => h.2 ⟨hp.inRange, hp.rooted⟩, fun e he => ?_⟩
  exact ⟨_, (hfail e (Sweep.outcome_error.mp he)).resolve_right
    fun h => h.2 ⟨hp.inRange, hp.rooted⟩⟩

end

end Registry.Portable

namespace Program

theorem create_some (code : Registry) (g : Graph) (m : MemberId) :
    create code g (some m) =
      match (cleanup code g { entry := m }).failure with
      | none => (.ok (cleanup code g { entry := m }).program, (cleanup code g { entry := m }).graph)
      | some e => (.error e, (cleanup code g { entry := m }).graph) := by
  rw [create]
  rcases cleanup code g { entry := m } with ⟨g', p, failure⟩
  cases failure <;> rfl

end Program

namespace LinkUnit.Restores

section
variable {κ : ClassId → ClassId} {μ : MemberId → MemberId} {β : BlockRef → BlockRef}
  {d : Declarations} {g : Graph} {code full : Registry} {entry : MemberId} {u : LinkUnit}
  {root : BlockRef}

theorem create_of_ends (h : u.Restores κ μ β d g code entry)
    (hmirrors : Graph.Mirrors μ β {m | code.ListsMember g entry m} {r | code.ListsBlock g r} full
      u.code g u.graph)
    (hroot : code.body? entry = some root) (hroot' : full.body? entry = some root)
    (hends : Sweep.Ends full (.start g entry root) o) :
    (∀ t, o = .ok t → (∀ m ∈ t.reachable, code.ListsMember g entry m) ∧
      (Program.create u.code u.graph (some u.entry)).1 =
        .ok ⟨u.entry, t.reachable.map μ, t.count⟩) ∧
    ∀ e, o = .error e →
      (Program.create u.code u.graph (some u.entry)).1 = .error (e.rename μ β) := by
  have hbody : u.code.body? u.entry = some (β root) := by
    rw [h.main, (h.sameBody .entry).body?, hroot, Option.map_some]
  have hstart : (Sweep.start g entry root).Mirrors μ β _ _ full u.code
      (.start u.graph (μ entry) (β root)) :=
    Sweep.mirrors_start hmirrors .entry ⟨entry, root, hroot, .refl⟩
  rw [← h.main] at hstart
  obtain ⟨hok, herror⟩ := hends.mirror hstart h.memberNumbers.injOn h.blockNumbers.injOn
    (Sweep.sound_start hroot') (Sweep.sound_start hbody)
  refine ⟨fun t ht => ?_, fun e he => ?_⟩
  · obtain ⟨t', hends', hmirror⟩ := hok t ht
    refine ⟨hmirror.members, ?_⟩
    rw [Program.create_some, (Program.cleanup_of_ends hbody hends').1, hmirror.reachable,
      hmirror.count]
  · rw [Program.create_some, Program.failure_of_ends hbody (herror e he)]

theorem create_cases (h : u.Restores κ μ β d g code entry) (hp : code.Portable d g entry) :
    (∃ e, (Program.create code g (some entry)).1 = .error (.defect e) ∧
        (Program.create u.code u.graph (some u.entry)).1 = .error (.defect (e.rename μ β)) ∧
        (e.rename μ β).kind.text u.declarations = e.kind.text d) ∨
      ∃ p p' names, (Program.create code g (some entry)).1 = .ok p ∧
        (Program.create u.code u.graph (some u.entry)).1 = .ok p' ∧
        p.reachable.mapM d.signature = .ok names ∧
        p'.reachable.mapM u.declarations.signature = .ok names ∧ p'.visited = p.visited := by
  cases hroot : code.body? entry with
  | none =>
    have hbody : u.code.body? u.entry = none := by
      rw [h.main, (h.sameBody .entry).body?, hroot, Option.map_none]
    refine .inl ⟨⟨.noEntry, some entry, none⟩, ?_, ?_, rfl⟩
    · rw [Program.create_some, Program.cleanup_of_none hroot]
    · rw [Program.create_some, Program.cleanup_of_none hbody, h.main]
      rfl
  | some root =>
    obtain ⟨o, hends, hblames⟩ := hp.exists_ends hroot
    have hmirrors : Graph.Mirrors μ β {m | code.ListsMember g entry m} {r | code.ListsBlock g r}
        code u.code g u.graph := h.mirrors hp fun _ _ _ _ _ => rfl
    obtain ⟨hok, herror⟩ := h.create_of_ends hmirrors hroot hroot hends
    cases o with
    | ok t =>
      obtain ⟨hlists, hcreate⟩ := hok t rfl
      obtain ⟨names, hnames, hnames'⟩ := h.signatures hp hlists
      refine .inr ⟨⟨entry, t.reachable, t.count⟩, _, names, ?_, hcreate, hnames, hnames', rfl⟩
      rw [Program.create_some, (Program.cleanup_of_ends hroot hends).1]
    | error e =>
      obtain ⟨s, m, r, b, kind, who, -, hmeets, -, -, hnames, rfl⟩ := hblames e rfl
      refine .inl ⟨⟨kind, who, some r⟩, ?_, herror _ rfl, ?_⟩
      · rw [Program.create_some, Program.failure_of_ends hroot hends]
      · refine DefectKind.text_rename fun caller hkind => ?_
        subst hkind
        obtain rfl : caller = m := hnames
        obtain ⟨root', hroot', -⟩ := hmeets.body
        exact h.signature hp (.body (hp.rooted.find_isSome.mpr ⟨root', hroot'⟩))

end

end LinkUnit.Restores

namespace Image

section
variable {d : Declarations} {g : Graph} {code : Registry} {entry : MemberId} {runId : RunId}

theorem decode_marshal {img : Image} (hfits : img.Fits)
    (h : img.normal.decode issued = (.ok u, next)) :
    LinkUnit.decode (marshal img) issued = (.ok u, next) := by
  rw [LinkUnit.decode, unmarshal_marshal hfits]
  simp only [h]

/-- Linking commutes with writing and reading. Either a portable program and what is read back from
its bytes both fail to be linked, with the same kind of defect, or both are linked to members that
print the same in the same order, and as many blocks are processed. -/
theorem create_decode (hp : code.Portable d g entry) (hid : runId.bytes.length = 16) :
    ∃ bytes, encodeCode d g code (some entry) runId = .ok bytes ∧
      ∃ μ β, ∀ issued, ∃ u next, LinkUnit.decode bytes issued = (.ok u, next) ∧
        ((∃ e, (Program.create code g (some entry)).1 = .error (.defect e) ∧
            (Program.create u.code u.graph (some u.entry)).1 = .error (.defect (e.rename μ β)) ∧
            (e.rename μ β).kind.text u.declarations = e.kind.text d) ∨
          ∃ p p' names, (Program.create code g (some entry)).1 = .ok p ∧
            (Program.create u.code u.graph (some u.entry)).1 = .ok p' ∧
            p.reachable.mapM d.signature = .ok names ∧
            p'.reachable.mapM u.declarations.signature = .ok names ∧ p'.visited = p.visited) := by
  obtain ⟨n, hn, hwrite⟩ := ofCode_eq hp runId
  refine ⟨marshal (n.image d g entry runId), by rw [encodeCode, hwrite]; rfl, number n.members,
    number n.blocks, fun issued => ?_⟩
  obtain ⟨u, next, hdecode, -, -, -, hu⟩ := hn.decode hp hid issued
  exact ⟨u, next, decode_marshal (hn.fits hp hid) hdecode, hu.create_cases hp⟩

end

theorem create_decode_shared :
    sharedCode.Portable sharedDeclarations sharedGraph 0 ∧ RunId.zero.bytes.length = 16 ∧
      ∃ bytes, encodeCode sharedDeclarations sharedGraph sharedCode (some 0) .zero = .ok bytes ∧
        ∃ u next p, LinkUnit.decode bytes 0 = (.ok u, next) ∧
          (Program.create u.code u.graph (some u.entry)).1 = .ok p ∧ p.visited = 2 ∧
          p.reachable.mapM u.declarations.signature =
            .ok ["Shape.area(array of Base):float", "Base.next:Shape"] := by
  have hcreate : (Program.create sharedCode sharedGraph (some 0)).1 = .ok ⟨0, [0, 2], 2⟩ := by
    decide
  have hnames : [0, 2].mapM sharedDeclarations.signature =
      .ok ["Shape.area(array of Base):float", "Base.next:Shape"] := by
    decide
  have hp := sharedCode_storePortable.portable
  have hid : RunId.zero.bytes.length = 16 := by decide
  obtain ⟨bytes, hbytes, μ, β, h⟩ := create_decode hp hid
  refine ⟨hp, hid, bytes, hbytes, ?_⟩
  obtain ⟨u, next, hdecode, ⟨e, herror, -⟩ |
    ⟨p, p', names, hok, hok', hprint, hprint', hcount⟩⟩ := h 0
  · simp [hcreate] at herror
  · obtain rfl := Except.ok.inj (hcreate.symm.trans hok)
    obtain rfl := Except.ok.inj (hnames.symm.trans hprint)
    exact ⟨u, next, p', hdecode, hok', hcount, hprint'⟩

end Image

end Linkage
