import Linkage.Proofs.LockStep
import Linkage.Proofs.Typing

/-!
# Writing undoes reading

A program whose bytes are read is written again with the same bytes. The order of the bodies, the
only thing about which the image says nothing, is that of their printed signatures, which are the
same in both programs. So it is the same order as long as no two bodies print the same.
-/

namespace Linkage

-- ---------------------------------------------------------------------------
-- The order of bodies
-- ---------------------------------------------------------------------------

namespace Declarations

def Ordered (d : Declarations) (m m' : MemberId) : Prop :=
  ∀ name name', d.signature m = .ok name → d.signature m' = .ok name' → name ≤ name'

section
variable {d d' : Declarations} {μ : MemberId → MemberId} {ms ms' sorted : List MemberId}

theorem not_after {name name' : String} : (!decide (name' < name)) = true ↔ name ≤ name' := by
  rw [Bool.not_eq_true', decide_eq_false_iff_not, String.not_lt]

theorem mergeSort_ascending (key : α → String) (xs : List α) :
    (xs.mergeSort fun a b => !decide (key b < key a)).Pairwise fun a b => key a ≤ key b := by
  refine (List.pairwise_mergeSort (fun a b c hab hbc => ?_) (fun a b => ?_) xs).imp not_after.mp
  · exact not_after.mpr (String.le_trans (not_after.mp hab) (not_after.mp hbc))
  · rw [Bool.or_eq_true, not_after, not_after]
    exact String.le_total (key a) (key b)

theorem bySignature_pairwise (h : d.bySignature ms = .ok sorted) : sorted.Pairwise d.Ordered := by
  unfold bySignature at h
  split at h
  · obtain rfl := Image.pure_ok.mp h
    exact .nil
  · obtain rfl := Image.pure_ok.mp h
    exact List.pairwise_singleton _ _
  · obtain ⟨named, hnamed, h⟩ := Image.bind_ok.mp h
    obtain rfl := Image.pure_ok.mp h
    have hsigned := (named_of_mapM hnamed).2
    refine List.pairwise_map.mpr ?_
    refine (mergeSort_ascending (·.1) named).imp_of_mem fun {p q} hp hq hpq => ?_
    intro name name' hname hname'
    rw [hsigned p (List.mem_mergeSort.mp hp), Except.ok.injEq] at hname
    rw [hsigned q (List.mem_mergeSort.mp hq), Except.ok.injEq] at hname'
    subst hname hname'
    exact hpq

/-- Members that print differently have one order, which no renaming changes. -/
theorem bySignature_map (hperm : ms'.Perm (ms.map μ))
    (hsame : ∀ m ∈ ms, d'.signature (μ m) = d.signature m)
    (hsigned : ∀ m ∈ ms, ∃ name, d.signature m = .ok name)
    (hnames : (ms.map d.signature).Nodup) (h : d.bySignature ms = .ok sorted) :
    d'.bySignature ms' = .ok (sorted.map μ) := by
  have hsigned' : ∀ m' ∈ ms', ∃ name, d'.signature m' = .ok name := by
    intro m' hm'
    obtain ⟨m, hm, rfl⟩ := List.mem_map.mp (hperm.mem_iff.mp hm')
    rw [hsame m hm]
    exact hsigned m hm
  obtain ⟨sorted', h'⟩ := bySignature_ok hsigned'
  have hsorted := bySignature_perm h
  have hsorted' := bySignature_perm h'
  have hperm' : sorted'.Perm (sorted.map μ) := (hsorted'.trans hperm).trans (hsorted.map μ).symm
  rw [h', hperm'.eq_of_pairwise ?_ (bySignature_pairwise h') ?_]
  · rintro a b ha hb hab hba
    obtain ⟨m, hm, rfl⟩ := List.mem_map.mp (hperm'.mem_iff.mp ha)
    obtain ⟨m', hm', rfl⟩ := List.mem_map.mp hb
    rw [hsorted.mem_iff] at hm hm'
    obtain ⟨name, hname⟩ := hsigned m hm
    obtain ⟨name', hname'⟩ := hsigned m' hm'
    have hle := hab name name' (by rw [hsame m hm, hname]) (by rw [hsame m' hm', hname'])
    have hge := hba name' name (by rw [hsame m' hm', hname']) (by rw [hsame m hm, hname])
    have heq : d.signature m = d.signature m' := by
      rw [hname, hname', String.le_antisymm hle hge]
    rw [List.inj_on_of_nodup_map hnames hm hm' heq]
  · refine List.pairwise_map.mpr ((bySignature_pairwise h).imp_of_mem fun {m m'} hm hm' hmm' => ?_)
    rw [hsorted.mem_iff] at hm hm'
    intro name name' hname hname'
    exact hmm' name name' (hsame m hm ▸ hname) (hsame m' hm' ▸ hname')

end

end Declarations

theorem Registry.find_perm {code code' : Registry} (hkeys : (code.map (·.1)).Nodup)
    (hperm : code'.Perm code) (m : MemberId) : code'.find m = code.find m := by
  have hkeys' : (code'.map (·.1)).Nodup := (hperm.map _).nodup_iff.mpr hkeys
  refine Option.ext fun root => ?_
  rw [Numbering.find_eq_some_iff hkeys, Numbering.find_eq_some_iff hkeys', hperm.mem_iff]

namespace LinkUnit.Restores

section
variable {κ : ClassId → ClassId} {μ : MemberId → MemberId} {β : BlockRef → BlockRef}
  {d : Declarations} {g : Graph} {code code' : Registry} {entry : MemberId} {u : LinkUnit}

theorem registered_perm (h : u.Restores κ μ β d g code entry) (hp : code.Portable d g entry)
    (hkeys : (u.code.map (·.1)).Nodup) :
    (u.code.map (·.1)).Perm ((code.map (·.1)).map μ) := by
  have hcode : ∀ m ∈ code.map (·.1), d.isCode m = true := by
    intro m hm
    obtain ⟨body, hbody, rfl⟩ := List.mem_map.mp hm
    exact hp.bodies body hbody
  have hperm := h.keys_perm hp hkeys hp.keys (fun m => .of_mem) fun m => by
    rw [← hp.rooted.find_isSome, Registry.find_isSome]
    exact ⟨fun hm => ⟨hm, hcode m hm⟩, And.left⟩
  rwa [List.filter_eq_self.mpr] at hperm
  intro m' hm'
  obtain ⟨m, hm, rfl⟩ := List.mem_map.mp hm'
  rw [h.isCode hp (.of_mem hm), hcode m hm]

theorem others_perm (h : u.Restores κ μ β d g code entry)
    (hperm : (code'.map (·.1)).Perm ((code.map (·.1)).map μ)) :
    ((code'.map (·.1)).filter fun m => some m != some u.entry).Perm
      (((code.map (·.1)).filter fun m => some m != some entry).map μ) := by
  have hentry : ∀ m ∈ code.map (·.1), (some (μ m) != some u.entry) = (some m != some entry) := by
    intro m hm
    have hinj := h.memberNumbers.injOn (Registry.ListsMember.of_mem hm) .entry
    rw [h.main, Bool.eq_iff_iff]
    simpa using not_congr ⟨hinj, congrArg μ⟩
  refine (hperm.filter _).trans (.of_eq ?_)
  rw [List.filter_map]
  exact congrArg _ (List.filter_congr hentry)

theorem isSome_find_entry (h : u.Restores κ μ β d g code entry)
    (hperm : (code'.map (·.1)).Perm ((code.map (·.1)).map μ)) :
    (code'.find u.entry).isSome = (code.find entry).isSome := by
  rw [Bool.eq_iff_iff, Registry.find_isSome, Registry.find_isSome, hperm.mem_iff, h.main,
    List.mem_map]
  constructor
  · rintro ⟨m, hm, heq⟩
    rwa [← h.memberNumbers.injOn (Registry.ListsMember.of_mem hm) .entry heq]
  · exact fun hm => ⟨entry, hm, rfl⟩

/-- However the bodies that were read are listed, they are written in the order of before. -/
theorem ordered_map (h : u.Restores κ μ β d g code entry) (hp : code.Portable d g entry)
    (hnames : (code.map fun body => d.signature body.1).Nodup)
    (hkeys : (u.code.map (·.1)).Nodup) (hperm : code'.Perm u.code)
    (horder : code.ordered d (some entry) = .ok order) :
    code'.ordered u.declarations (some u.entry) = .ok (order.map μ) := by
  have hregistered := (hperm.map (·.1)).trans (h.registered_perm hp hkeys)
  obtain ⟨sorted, hsorted, horder⟩ := Image.bind_ok.mp horder
  have hsub := List.filter_sublist (p := fun m => some m != some entry) (l := code.map (·.1))
  have hsorted' := Declarations.bySignature_map (h.others_perm hregistered)
    (fun m hm => h.signature hp (.of_mem (hsub.subset hm)))
    (fun m hm => hp.signature_ok (.of_mem (hsub.subset hm)))
    (((hsub.map d.signature).nodup) (by simpa [Function.comp_def] using hnames)) hsorted
  obtain rfl := Image.pure_ok.mp horder
  rw [Registry.ordered, hsorted', Image.ok_bind]
  simp only [h.isSome_find_entry hregistered]
  split
  · rw [List.map_cons, h.main]
    rfl
  · rfl

theorem image_normal (h : u.Restores κ μ β d g code entry) (hp : code.Portable d g entry)
    (hcode : ∀ m root, code.body? m = some root → code'.body? (μ m) = some (β root))
    {order : List MemberId} {runId : RunId} {img : Image}
    (himg : Image.Encoder.image d g code (some entry) order runId none = .ok img) :
    ∃ img', Image.Encoder.image u.declarations u.graph code' (some u.entry) (order.map μ) runId
        none = .ok img' ∧ img'.normal = img.normal := by
  obtain ⟨⟨⟨i, rows, positions⟩, t⟩, hrun, himg⟩ := Image.bind_ok.mp himg
  obtain ⟨_, t', hrun', rfl, bs, ht⟩ := (h.write_follows hp hcode order).of_ok hrun
  refine ⟨_, Image.bind_ok.mpr ⟨_, hrun', rfl⟩, ?_⟩
  obtain rfl := Image.pure_ok.mp himg
  have hblocks : t'.blocks.toList.map Image.Block.normal =
      t.blocks.toList.map Image.Block.normal := by
    simpa using congrArg Array.toList ht.blocks
  simp [Image.normal, ht.classes, ht.members, hblocks]

theorem body?_number (h : u.Restores κ μ β d g code entry)
    (hkeys : (u.code.map (·.1)).Nodup) (hperm : code'.Perm u.code)
    (hroot : code.body? m = some root) : code'.body? (μ m) = some (β root) := by
  rw [Registry.body?_eq_some, Registry.find_perm hkeys hperm]
  exact (h.registry _ _).mpr ⟨m, some root, Registry.body?_eq_some.mp hroot, rfl, rfl⟩

theorem encodeCode_eq (h : u.Restores κ μ β d g code entry) (hp : code.Portable d g entry)
    (hnames : (code.map fun body => d.signature body.1).Nodup)
    (hkeys : (u.code.map (·.1)).Nodup) (hperm : code'.Perm u.code) {runId : RunId}
    (hcode : Image.encodeCode d g code (some entry) runId = .ok bytes) :
    Image.encodeCode u.declarations u.graph code' (some u.entry) runId = .ok bytes := by
  cases horder : code.ordered d (some entry) with
  | error f => simp [Image.encodeCode, Image.ofCode, horder, Except.map] at hcode
  | ok order =>
    rw [Image.encodeCode, Image.ofCode, horder] at hcode
    obtain ⟨img, himg, rfl⟩ := Image.map_ok.mp hcode
    obtain ⟨img', himg', hnormal⟩ :=
      h.image_normal hp (fun m root => h.body?_number hkeys hperm) himg
    rw [Image.encodeCode, Image.ofCode, h.ordered_map hp hnames hkeys hperm horder]
    refine Image.map_ok.mpr ⟨img', himg', ?_⟩
    rw [← Image.marshal_normal img', hnormal, Image.marshal_normal]

end

end LinkUnit.Restores

-- ---------------------------------------------------------------------------
-- Writing what was read
-- ---------------------------------------------------------------------------

namespace Image

section
variable {d : Declarations} {g : Graph} {code : Registry} {entry : MemberId} {runId : RunId}
  {bytes : List UInt8} {u : LinkUnit}

theorem exists_accepted (hkeys : (code.map (·.1)).Nodup)
    (hcode : encodeCode d g code (some entry) runId = .ok bytes) (hlen : bytes.length < 2 ^ 63)
    (hu : (LinkUnit.decode bytes issued).1 = .ok u) :
    ∃ n : Numbering, n.Accepted d g code entry runId bytes.length ∧
      ((n.image d g entry runId).normal.decode issued).1 = .ok u := by
  obtain ⟨hcomplete, n, hn, hbytes⟩ := encodeCode_ok hkeys hcode
  obtain ⟨x, hread, hx⟩ := exists_image hu
  have hbounded := bounded_of_unmarshal hread
  have hlimit : (marshal (n.image d g entry runId)).length < 2 ^ 64 := by
    rw [← hbytes]
    omega
  obtain rfl := normal_of_unmarshal hlimit (hbytes ▸ hread)
  exact ⟨n, ⟨hkeys, hcomplete, hn, wellFormed_of_decode hx, hbounded, hlen⟩, hx⟩

/-- A program that is written and whose bytes are read is portable, and the unit restores it. -/
theorem restores_of_decode (hkeys : (code.map (·.1)).Nodup) (hconst : code.ConstantsTyped g)
    (hid : runId.bytes.length = 16) (hcode : encodeCode d g code (some entry) runId = .ok bytes)
    (hlen : bytes.length < 2 ^ 63) (hu : (LinkUnit.decode bytes issued).1 = .ok u) :
    code.Portable d g entry ∧ u.runId = runId ∧ (u.code.map (·.1)).Nodup ∧
      ∃ κ μ β, u.Restores κ μ β d g code entry := by
  obtain ⟨n, h, hx⟩ := exists_accepted hkeys hcode hlen hu
  have hp := Registry.portable_of_typed hkeys h.complete (h.typed hconst)
    (h.covers.legible h.bounded)
  obtain ⟨u', next, hdecode, hrun, -, -, hrestores⟩ := h.covers.decode hp hid issued
  rw [hdecode] at hx
  obtain rfl := Except.ok.inj hx
  exact ⟨hp, hrun, (readFrom_of_decode (by rw [hdecode])).bodies.keys, _, _, _, hrestores⟩

/-- Writing undoes reading, on what was written. If a program whose bodies print differently is
written, and a unit is read from its bytes, then that unit is written with exactly these bytes,
whatever order its bodies are listed in. -/
theorem encodeCode_decode (hnames : (code.map fun body => d.signature body.1).Nodup)
    (hconst : code.ConstantsTyped g) (hid : runId.bytes.length = 16)
    (hcode : encodeCode d g code (some entry) runId = .ok bytes) (hlen : bytes.length < 2 ^ 63)
    (hu : (LinkUnit.decode bytes issued).1 = .ok u) :
    ∀ code' : Registry, code'.Perm u.code →
      encodeCode u.declarations u.graph code' (some u.entry) u.runId = .ok bytes := by
  have hkeys : (code.map (·.1)).Nodup :=
    .of_map d.signature (by simpa [Function.comp_def] using hnames)
  obtain ⟨hp, hrun, hkeys', κ, μ, β, h⟩ := restores_of_decode hkeys hconst hid hcode hlen hu
  intro code' hperm
  rw [hrun]
  exact h.encodeCode_eq hp hnames hkeys' hperm hcode

end

theorem encodeCode_decode_shared :
    (sharedCode.map fun body => sharedDeclarations.signature body.1).Nodup ∧
      sharedCode.ConstantsTyped sharedGraph ∧
      ∃ bytes u, encodeCode sharedDeclarations sharedGraph sharedCode (some 0) .zero = .ok bytes ∧
        bytes.length < 2 ^ 63 ∧ (LinkUnit.decode bytes 0).1 = .ok u ∧
        encodeCode u.declarations u.graph u.code.reverse (some u.entry) u.runId = .ok bytes := by
  have hnames : (sharedCode.map fun body => sharedDeclarations.signature body.1).Nodup := by decide
  have hconst : sharedCode.ConstantsTyped sharedGraph := by
    intro r b t value hr hb hi
    obtain ⟨b', hb', hport⟩ := sharedCode_storePortable.portable.blocks r hr
    obtain rfl := Option.some.inj (hb.symm.trans hb')
    exact (hport.code _ hi).operands.1
  have hrun : ((encodeCode sharedDeclarations sharedGraph sharedCode (some 0) .zero).toOption.map
      fun bytes => (bytes.length, (LinkUnit.decode bytes 0).1.isOk)) = some (199, true) := by
    decide +kernel
  cases hcode : encodeCode sharedDeclarations sharedGraph sharedCode (some 0) .zero with
  | error e => simp [hcode, Except.toOption] at hrun
  | ok bytes =>
    simp only [hcode, Except.toOption, Option.map_some, Option.some.injEq, Prod.mk.injEq] at hrun
    have hlen : bytes.length < 2 ^ 63 := by omega
    cases hu : (LinkUnit.decode bytes 0).1 with
    | error e => simp [hu, Except.isOk, Except.toBool] at hrun
    | ok u =>
      exact ⟨hnames, hconst, bytes, u, rfl, hlen, hu,
        encodeCode_decode hnames hconst (by decide) hcode hlen hu _ u.code.reverse_perm⟩

end Image

end Linkage
