import Linkage.Proofs.Reencoding

/-!
# The order in which bodies are enumerated

A registry gives every member one body and says nothing about an order. Here it is a list, so what
may not depend on the order must be the same for every permutation of the list. Writing meets the
bodies in the order of their printed signatures, and gives out every number on the way.
-/

namespace Linkage

-- ---------------------------------------------------------------------------
-- Printed signatures
-- ---------------------------------------------------------------------------

namespace Declarations

def PrintsBefore (d : Declarations) (m m' : MemberId) : Prop :=
  ∃ name name', d.signature m = .ok name ∧ d.signature m' = .ok name' ∧ name < name'

section
variable {d : Declarations} {ms ms' sorted : List MemberId}

theorem bySignature_eq_of_perm (hperm : ms'.Perm ms)
    (hsigned : ∀ m ∈ ms, ∃ name, d.signature m = .ok name)
    (hnames : (ms.map d.signature).Nodup) : d.bySignature ms' = d.bySignature ms := by
  obtain ⟨sorted, hsorted⟩ := bySignature_ok hsigned
  have hsorted' := bySignature_map (μ := id) (by simpa using hperm) (fun _ _ => rfl) hsigned hnames
    hsorted
  rw [hsorted, hsorted', List.map_id]

theorem bySignature_strict (hsigned : ∀ m ∈ ms, ∃ name, d.signature m = .ok name)
    (hnames : (ms.map d.signature).Nodup) (h : d.bySignature ms = .ok sorted) :
    sorted.Pairwise d.PrintsBefore := by
  have hperm := bySignature_perm h
  have hdiffer : sorted.Pairwise fun m m' => d.signature m ≠ d.signature m' :=
    List.pairwise_map.mp ((hperm.map d.signature).nodup_iff.mpr hnames)
  refine ((bySignature_pairwise h).and hdiffer).imp_of_mem fun {m m'} hm hm' hmm' => ?_
  obtain ⟨name, hname⟩ := hsigned m (hperm.mem_iff.mp hm)
  obtain ⟨name', hname'⟩ := hsigned m' (hperm.mem_iff.mp hm')
  refine ⟨name, name', hname, hname', String.not_le.mp fun hge => hmm'.2 ?_⟩
  rw [hname, hname', String.le_antisymm (hmm'.1 name name' hname hname') hge]

end

end Declarations

-- ---------------------------------------------------------------------------
-- Registries
-- ---------------------------------------------------------------------------

namespace Registry

def others (code : Registry) (entry : Option MemberId) : List MemberId :=
  (code.map (·.1)).filter fun m => some m != entry

/-- The bodies have printed signatures, all of them different. -/
structure Distinct (d : Declarations) (code : Registry) : Prop where
  signed : ∀ body ∈ code, ∃ name, d.signature body.1 = .ok name
  names : (code.map fun body => d.signature body.1).Nodup

section
variable {d : Declarations} {code code' : Registry} {entry : Option MemberId}

theorem Distinct.keys (h : code.Distinct d) : (code.map (·.1)).Nodup :=
  .of_map d.signature (by simpa [Function.comp_def] using h.names)

theorem Distinct.others_signed (h : code.Distinct d) :
    ∀ m ∈ code.others entry, ∃ name, d.signature m = .ok name := by
  intro m hm
  obtain ⟨body, hbody, rfl⟩ := List.mem_map.mp (List.mem_of_mem_filter hm)
  exact h.signed body hbody

theorem Distinct.others_names (h : code.Distinct d) :
    ((code.others entry).map d.signature).Nodup := by
  have hsub := (List.filter_sublist (p := fun m => some m != entry)
    (l := code.map (·.1))).map d.signature
  exact hsub.nodup (by simpa [Function.comp_def] using h.names)

theorem ordered_eq (d : Declarations) (code : Registry) (entry : Option MemberId) :
    code.ordered d entry = (d.bySignature (code.others entry)).map fun sorted =>
      (entry.toList.filter fun m => (code.find m).isSome) ++ sorted := by
  rw [ordered, ← others]
  cases d.bySignature (code.others entry) with
  | error f => rfl
  | ok sorted =>
    cases entry with
    | none => rfl
    | some m =>
      change Except.ok _ = Except.ok _
      cases hm : (code.find m).isSome <;> simp [hm]

theorem ordered_eq_of_perm (h : code.Distinct d) (hperm : code'.Perm code) :
    code'.ordered d entry = code.ordered d entry := by
  have hothers : (code'.others entry).Perm (code.others entry) :=
    (hperm.map Prod.fst).filter _
  have hsorted := Declarations.bySignature_eq_of_perm hothers h.others_signed h.others_names
  have hfind : ∀ m, code'.find m = code.find m := find_perm h.keys hperm
  simp only [ordered_eq, hsorted, hfind]

theorem ordered_strict (h : code.Distinct d) {entry : MemberId}
    (horder : code.ordered d (some entry) = .ok order) :
    ∃ sorted, order = (if (code.find entry).isSome then [entry] else []) ++ sorted ∧
      entry ∉ sorted ∧ sorted.Pairwise d.PrintsBefore := by
  rw [ordered_eq] at horder
  obtain ⟨sorted, hsorted, rfl⟩ := Image.map_ok.mp horder
  refine ⟨sorted, by cases hm : (code.find entry).isSome <;> simp [hm], fun hmem => ?_,
    Declarations.bySignature_strict h.others_signed h.others_names hsorted⟩
  have hother := (Declarations.bySignature_perm hsorted).mem_iff.mp hmem
  simp [others] at hother

end

end Registry

-- ---------------------------------------------------------------------------
-- Writing
-- ---------------------------------------------------------------------------

namespace Image

open Encoder

section
variable {d : Declarations} {g : Graph} {code code' : Registry} {runId : RunId}

theorem placeBodies_congr (h : ∀ m, code'.body? m = code.body? m) (order : List MemberId) :
    placeBodies d g code' order = placeBodies d g code order := by
  induction order with
  | nil => rfl
  | cons m order ih => simp only [placeBodies, h, ih]

theorem ofCode_eq_of_perm (h : code.Distinct d) (hperm : code'.Perm code)
    (entry : Option MemberId) : ofCode d g code' entry runId = ofCode d g code entry runId := by
  have hbody : ∀ m, code'.body? m = code.body? m := fun m => by
    rw [Registry.body?, Registry.body?, Registry.find_perm h.keys hperm]
  have hwrite : ∀ order listed,
      write d g code' entry order listed = write d g code entry order listed := by
    intro order listed
    simp only [write, placeBodies_congr hbody]
  simp only [ofCode, Registry.ordered_eq_of_perm h hperm, Encoder.image, hwrite]

theorem ofCode_none (d : Declarations) (g : Graph) (code : Registry) (runId : RunId) :
    ∃ e, ofCode d g code none runId = .error e := by
  rw [ofCode]
  split
  · exact ⟨_, rfl⟩
  · exact ⟨_, rfl⟩

/-- Writing does not depend on the order in which the bodies are enumerated: the bytes, or the
reason why there are none, are the same for every order. The bodies of the image are the entry, if
it has one, and then all others in ascending order of their printed signatures. -/
theorem encodeCode_enumerated (h : code.Distinct d) (entry : Option MemberId) (runId : RunId) :
    (∀ code' : Registry, code'.Perm code →
      encodeCode d g code' entry runId = encodeCode d g code entry runId) ∧
    ∀ bytes, encodeCode d g code entry runId = .ok bytes →
      ∃ (e : MemberId) (n : Numbering) (others : List MemberId), entry = some e ∧
        ofCode d g code entry runId = .ok (n.image d g e runId) ∧
        bytes = marshal (n.image d g e runId) ∧ n.Covers d g code e ∧
        n.bodies.map (·.1) = (if (code.find e).isSome then [e] else []) ++ others ∧
        e ∉ others ∧ others.Pairwise d.PrintsBefore := by
  refine ⟨fun code' hperm => ?_, fun bytes hbytes => ?_⟩
  · rw [encodeCode, encodeCode, ofCode_eq_of_perm h hperm]
  · obtain ⟨img, himg, rfl⟩ := map_ok.mp hbytes
    cases entry with
    | none =>
      obtain ⟨e, he⟩ := ofCode_none d g code runId
      rw [he] at himg
      cases himg
    | some entry =>
      obtain ⟨-, n, hn, horder, rfl⟩ := ofCode_ok h.keys himg
      obtain ⟨others, hothers⟩ := Registry.ordered_strict h horder
      exact ⟨entry, n, others, rfl, himg, rfl, hn, hothers⟩

end

def scatteredDeclarations : Declarations where
  classes := #[⟨"Main", none⟩]
  members := #[.method 0 "main" [] (.primitive .void), .method 0 "b" [] (.primitive .void),
    .method 0 "a" [.primitive .int] (.primitive .void)]

def scatteredGraph : Graph where
  blocks := #[{ id := 0, code := [.ret .absent], succs := [], mergeable := true },
    { id := 1, code := [.nop], succs := [some 0], mergeable := true }]

def scatteredCode : Registry := [(1, some 1), (0, some 0), (2, some 1)]

theorem scatteredCode_distinct : scatteredCode.Distinct scatteredDeclarations where
  signed := by
    simp only [scatteredCode, List.forall_mem_cons]
    exact ⟨⟨_, rfl⟩, ⟨_, rfl⟩, ⟨_, rfl⟩, by simp⟩
  names := by decide

theorem scatteredCode_storePortable :
    scatteredCode.StorePortable scatteredDeclarations scatteredGraph 0 := by
  constructor <;> decide

theorem encodeCode_enumerated_scattered :
    scatteredCode.Distinct scatteredDeclarations ∧
      ∃ bytes, encodeCode scatteredDeclarations scatteredGraph scatteredCode (some 0) .zero =
          .ok bytes ∧
        encodeCode scatteredDeclarations scatteredGraph scatteredCode.reverse (some 0) .zero =
          .ok bytes ∧
        ∃ (n : Numbering) (others : List MemberId),
          bytes = marshal (n.image scatteredDeclarations scatteredGraph 0 .zero) ∧
          n.Covers scatteredDeclarations scatteredGraph scatteredCode 0 ∧
          n.bodies.map (·.1) = 0 :: others ∧
          0 ∉ others ∧ others.Pairwise scatteredDeclarations.PrintsBefore := by
  obtain ⟨n, -, himg⟩ := ofCode_eq scatteredCode_storePortable.portable .zero
  have hbytes : encodeCode scatteredDeclarations scatteredGraph scatteredCode (some 0) .zero =
      .ok (marshal (n.image scatteredDeclarations scatteredGraph 0 .zero)) := by
    rw [encodeCode, himg]
    rfl
  obtain ⟨hsame, hbodies⟩ :=
    encodeCode_enumerated (g := scatteredGraph) scatteredCode_distinct (some 0) .zero
  refine ⟨scatteredCode_distinct, _, hbytes, by rw [hsame _ (List.reverse_perm _), hbytes], ?_⟩
  obtain ⟨e, n', others, he, -, heq, hcovers, hlist, hnot, hsorted⟩ := hbodies _ hbytes
  obtain rfl := Option.some.inj he
  exact ⟨n', others, heq, hcovers, hlist, hnot, hsorted⟩

end Image

end Linkage
