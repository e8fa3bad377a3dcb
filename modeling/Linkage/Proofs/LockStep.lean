import Linkage.Proofs.LinkedImage

/-!
# Writing in step

A program that was read is written again in step with the one it restores: whatever the encoder does
for the one, it does for the other, under the numbers of the image. So the tables come out with the
same rows in the same places.
-/

namespace Linkage

open Image (Encode Encoder)
open Image.Encoder

-- ---------------------------------------------------------------------------
-- Computations in step
-- ---------------------------------------------------------------------------

namespace Image.Encoder

/-- Where the first computation succeeds, so does the second, with results and states after them
that stand in a relation. -/
def Follows (x : Encode α) (x' : Encode β) (s s' : Encoder)
    (Q : α → Encoder → β → Encoder → Prop) : Prop :=
  Yields True x s fun a t => ∃ b t', x' s' = .ok (b, t') ∧ Q a t b t'

section
variable {x : Encode α} {x' : Encode β} {f : α → Encode γ} {f' : β → Encode δ} {s s' : Encoder}
  {Q : α → Encoder → β → Encoder → Prop} {R : γ → Encoder → δ → Encoder → Prop}

theorem Follows.pure (h : Q a s b s') : Follows (pure a) (pure b) s s' Q := ⟨b, s', rfl, h⟩

theorem Follows.fail : Follows (throw e) x' s s' Q := trivial

theorem Follows.mono {Q' : α → Encoder → β → Encoder → Prop} (hx : Follows x x' s s' Q)
    (h : ∀ a t b t', Q a t b t' → Q' a t b t') : Follows x x' s s' Q' :=
  Yields.mono hx fun a t ⟨b, t', hrun, hQ⟩ => ⟨b, t', hrun, h a t b t' hQ⟩

theorem Follows.bind (hx : Follows x x' s s' Q)
    (hf : ∀ a t b t', Q a t b t' → Follows (f a) (f' b) t t' R) :
    Follows (x >>= f) (x' >>= f') s s' R := by
  refine Yields.bind hx ?_
  rintro a t ⟨b, t', hrun, hQ⟩
  refine Yields.mono (hf a t b t' hQ) ?_
  rintro c r ⟨c', r', hrun', hR⟩
  refine ⟨c', r', ?_, hR⟩
  show (x' s' >>= fun p => f' p.1 p.2) = _
  rw [hrun]
  exact hrun'

theorem Follows.get {f f' : Encoder → Encode γ} {R : γ → Encoder → γ → Encoder → Prop}
    (h : Follows (f s) (f' s') s s' R) :
    Follows (MonadState.get >>= f) (MonadState.get >>= f') s s' R := h

theorem Follows.set {f f' : PUnit → Encode γ} {R : γ → Encoder → γ → Encoder → Prop}
    {t t' : Encoder} (h : Follows (f ⟨⟩) (f' ⟨⟩) t t' R) :
    Follows (MonadStateOf.set t >>= f) (MonadStateOf.set t' >>= f') s s' R := h

theorem Follows.modify {f f' : PUnit → Encode γ} {R : γ → Encoder → γ → Encoder → Prop}
    {t t' : Encoder → Encoder} (h : Follows (f ⟨⟩) (f' ⟨⟩) (t s) (t' s') R) :
    Follows (modify t >>= f) (modify t' >>= f') s s' R := h

theorem Follows.of_ok (hx : Follows x x' s s' Q) (hrun : x s = .ok (a, t)) :
    ∃ b t', x' s' = .ok (b, t') ∧ Q a t b t' :=
  Yields.of_ok hx hrun

theorem Follows.mapM {S : α → β → Prop} {P : γ → δ → Prop} {I : Encoder → Encoder → Prop}
    {xs : List α} {ys : List β} (hxs : List.Forall₂ S xs ys)
    (hf : ∀ a b, S a b → ∀ s s', I s s' →
      Follows (f a) (f' b) s s' fun c t c' t' => P c c' ∧ I t t') (h : I s s') :
    Follows (xs.mapM f) (ys.mapM f') s s' fun cs t cs' t' => List.Forall₂ P cs cs' ∧ I t t' := by
  induction hxs generalizing s s' with
  | nil => exact .pure ⟨.nil, h⟩
  | cons hab _ ih =>
    rw [List.mapM_cons, List.mapM_cons]
    refine .bind (hf _ _ hab s s' h) ?_
    rintro c t c' t' ⟨hc, ht⟩
    refine .bind (ih ht) ?_
    rintro cs r cs' r' ⟨hcs, hr⟩
    exact .pure ⟨.cons hc hcs, hr⟩

theorem Follows.mapM_map {φ : α → β} {I : Encoder → Encoder → Prop} {xs : List α}
    {f' : β → Encode γ} (hf : ∀ a ∈ xs, ∀ s s', I s s' →
      Follows (f a) (f' (φ a)) s s' fun c t c' t' => c' = c ∧ I t t') (h : I s s') :
    Follows (xs.mapM f) ((xs.map φ).mapM f') s s' fun cs t cs' t' => cs' = cs ∧ I t t' := by
  have hall : List.Forall₂ (fun a b => a ∈ xs ∧ b = φ a) xs (xs.map φ) := by
    rw [List.forall₂_map_right_iff, List.forall₂_same]
    exact fun a ha => ⟨ha, rfl⟩
  refine (Follows.mapM (P := fun c c' => c' = c) hall ?_ h).mono ?_
  · rintro a _ ⟨ha, rfl⟩ s s' h
    exact hf a ha s s' h
  · rintro cs t cs' t' ⟨heq, ht⟩
    exact ⟨(List.forall₂_eq_eq_eq ▸ heq.flip : cs' = cs), ht⟩

end

end Image.Encoder

theorem idxOf?_map {f : Nat → Nat} {l : List Nat} (hf : ∀ y ∈ l, f y = f x → y = x) :
    (l.map f).idxOf? (f x) = l.idxOf? x := by
  induction l with
  | nil => rfl
  | cons y l ih =>
    have ih := ih fun z hz => hf z (List.mem_cons_of_mem _ hz)
    have heq : (f y == f x) = (y == x) := by
      rw [Bool.eq_iff_iff, beq_iff_eq, beq_iff_eq]
      exact ⟨hf y List.mem_cons_self, congrArg f⟩
    rw [List.map_cons, List.idxOf?_cons, List.idxOf?_cons, heq, ih]

-- ---------------------------------------------------------------------------
-- Ways up
-- ---------------------------------------------------------------------------

theorem Declarations.Lineage.chain_eq {d : Declarations} (h : d.Lineage (c :: supers))
    (hn : supers.length < n) : d.chain n (some c) = c :: supers := by
  induction n generalizing c supers with
  | zero => omega
  | succ n ih =>
    cases h with
    | top htop => cases n <;> simp [chain, htop]
    | @step c s supers hs hl =>
      rw [List.length_cons] at hn
      rw [chain, show d.superOf c = some s from hs, ih hl (by omega)]

theorem Constant.canonical_canonical (value : Constant) :
    value.canonical.canonical = value.canonical := by
  cases value with
  | float x => exact congrArg Constant.float x.canonical_canonical
  | _ => rfl

namespace LinkUnit.Restores

section
variable {κ : ClassId → ClassId} {μ : MemberId → MemberId} {β : BlockRef → BlockRef}
  {d : Declarations} {g : Graph} {code : Registry} {entry : MemberId} {u : LinkUnit}

theorem superOf (h : u.Restores κ μ β d g code entry) (hp : code.Portable d g entry)
    (hc : code.ListsClass d g entry c) :
    u.declarations.superOf (κ c) = (d.superOf c).map κ := by
  obtain ⟨k, hk, -⟩ := hp.classes c hc
  simp [Declarations.superOf, h.classes c k hc hk, hk]

theorem lineage (h : u.Restores κ μ β d g code entry) (hp : code.Portable d g entry)
    (hl : d.Lineage cs) (hcs : ∀ c ∈ cs, code.ListsClass d g entry c) :
    u.declarations.Lineage (cs.map κ) := by
  induction hl with
  | top htop => exact .top (by rw [h.superOf hp (hcs _ (by simp)), htop]; rfl)
  | step hs _ ih =>
    refine .step ?_ (ih fun c hc => hcs c (by simp [hc]))
    rw [Declarations.Extends, h.superOf hp (hcs _ (by simp)), hs]
    rfl

theorem ancestry (h : u.Restores κ μ β d g code entry) (hp : code.Portable d g entry)
    (hc : code.ListsClass d g entry c) :
    u.declarations.ancestry (κ c) = (d.ancestry c).map κ ∧
      ∀ x ∈ d.ancestry c, code.ListsClass d g entry x := by
  obtain ⟨supers, hanc, hl, hnodup⟩ :=
    Declarations.lineage_ancestry fun x hx => hp.acyclic x (hc.reaches hx)
  have hlists : ∀ x ∈ c :: supers, code.ListsClass d g entry x := fun x hx =>
    hc.reaches (Declarations.reaches_of_mem_ancestry (hanc ▸ hx))
  refine ⟨?_, fun x hx => hlists x (hanc ▸ hx)⟩
  -- the numbers are different and all below the number of classes that were read
  have hnumbers : ((c :: supers).map κ).Nodup :=
    hnodup.map_on fun x hx y hy => h.classNumbers.injOn (hlists x hx) (hlists y hy)
  have hsub : (c :: supers).map κ ⊆ List.range u.declarations.classes.size := by
    intro y hy
    obtain ⟨x, hx, rfl⟩ := List.mem_map.mp hy
    exact List.mem_range.mpr (h.classNumbers.mapsTo (hlists x hx))
  have hlength := (List.subperm_of_subset hnumbers hsub).length_le
  rw [List.length_map, List.length_range, List.length_cons] at hlength
  rw [hanc, Declarations.ancestry, List.map_cons]
  exact (h.lineage hp hl hlists).chain_eq (by rw [List.length_map]; omega)

-- ---------------------------------------------------------------------------
-- Tables in step
-- ---------------------------------------------------------------------------

/-- The states of two encoders in step, with `count` blocks written: the tables hold the same rows
for the same things. The blocks in `bs` have positions, in this order. -/
structure Twin (_ : u.Restores κ μ β d g code entry) (bs : List BlockRef) (count : Nat)
    (s s' : Encoder) : Prop where
  classIds : s'.classIds = s.classIds.map κ
  classesIn : ∀ c ∈ s.classIds, code.ListsClass d g entry c
  classes : s'.classes = s.classes
  memberIds : s'.memberIds = s.memberIds.map μ
  membersIn : ∀ m ∈ s.memberIds, code.ListsMember g entry m
  members : s'.members = s.members
  positioned : Positioned g bs s
  positioned' : Positioned u.graph (bs.map β) s'
  blocksIn : ∀ r ∈ bs, code.ListsBlock g r
  blocks : s'.blocks.map Image.Block.normal = s.blocks.map Image.Block.normal
  count : s.blocks.size = count

section
variable {h : u.Restores κ μ β d g code entry} {bs : List BlockRef} {count : Nat}
  {s s' : Encoder} {c : ClassId} {m : MemberId}

theorem Twin.idxOf?_class (ht : h.Twin bs count s s') (hc : code.ListsClass d g entry c) :
    s'.classIds.idxOf? (κ c) = s.classIds.idxOf? c := by
  rw [ht.classIds]
  exact idxOf?_map fun x hx => h.classNumbers.injOn (ht.classesIn x hx) hc

theorem Twin.idxOf?_member (ht : h.Twin bs count s s') (hm : code.ListsMember g entry m) :
    s'.memberIds.idxOf? (μ m) = s.memberIds.idxOf? m := by
  rw [ht.memberIds]
  exact idxOf?_map fun x hx => h.memberNumbers.injOn (ht.membersIn x hx) hm

theorem Twin.addClass (ht : h.Twin bs count s s') (hc : code.ListsClass d g entry c)
    (row : Image.Class) : h.Twin bs count
      { s with classIds := s.classIds ++ [c], classes := s.classes.push row }
      { s' with classIds := s'.classIds ++ [κ c], classes := s'.classes.push row } :=
  { ht with
    classIds := by simp [ht.classIds]
    classesIn := List.forall_mem_append.mpr ⟨ht.classesIn, by simpa using hc⟩
    classes := by simp [ht.classes]
    positioned := ht.positioned.of_positions rfl
    positioned' := ht.positioned'.of_positions rfl }

theorem Twin.setClass (ht : h.Twin bs count s s') (i : Nat) (row : Image.Class) :
    h.Twin bs count { s with classes := s.classes.setIfInBounds i row }
      { s' with classes := s'.classes.setIfInBounds i row } :=
  { ht with
    classes := by simp [ht.classes]
    positioned := ht.positioned.of_positions rfl
    positioned' := ht.positioned'.of_positions rfl }

theorem Twin.addMember (ht : h.Twin bs count s s') (hm : code.ListsMember g entry m)
    (row : Image.Member) : h.Twin bs count
      { s with memberIds := s.memberIds ++ [m], members := s.members.push row }
      { s' with memberIds := s'.memberIds ++ [μ m], members := s'.members.push row } :=
  { ht with
    memberIds := by simp [ht.memberIds]
    membersIn := List.forall_mem_append.mpr ⟨ht.membersIn, by simpa using hm⟩
    members := by simp [ht.members]
    positioned := ht.positioned.of_positions rfl
    positioned' := ht.positioned'.of_positions rfl }

theorem placeClasses_follows (hcs : ∀ c ∈ cs, code.ListsClass d g entry c)
    (ht : h.Twin bs count s s') :
    Follows (placeClasses d cs) (placeClasses u.declarations (cs.map κ)) s s'
      fun i t i' t' => i' = i ∧ h.Twin bs count t t' := by
  induction cs generalizing s s' with
  | nil => exact .fail
  | cons c supers ih =>
    have hc := hcs c (by simp)
    rw [List.map_cons, placeClasses, placeClasses]
    refine .get ?_
    rw [ht.idxOf?_class hc]
    cases hi : s.classIds.idxOf? c with
    | some i => exact .pure ⟨rfl, ht⟩
    | none =>
      cases hk : d.classes[c]? with
      | none => exact .fail
      | some k =>
        simp only [h.classes c k hc hk, List.isEmpty_map, ht.classes]
        refine .set ?_
        have hadd := ht.addClass hc { name := k.name }
        rw [ht.classes] at hadd
        cases supers with
        | nil => exact .pure ⟨rfl, hadd⟩
        | cons p supers =>
          refine .bind (ih (fun x hx => hcs x (by simp [hx])) hadd) ?_
          rintro above t _ t' ⟨rfl, ht'⟩
          exact .modify (.pure ⟨rfl, ht'.setClass _ _⟩)

theorem placeClass_follows (hp : code.Portable d g entry) (hc : code.ListsClass d g entry c)
    (ht : h.Twin bs count s s') :
    Follows (placeClass d c) (placeClass u.declarations (κ c)) s s'
      fun i t i' t' => i' = i ∧ h.Twin bs count t t' := by
  obtain ⟨hanc, hlists⟩ := h.ancestry hp hc
  rw [placeClass, placeClass, hanc]
  exact placeClasses_follows hlists ht

theorem placeType_follows (hp : code.Portable d g entry) {t : Ty}
    (hc : ∀ c ∈ t.class?, code.ListsClass d g entry c) (ht : h.Twin bs count s s') :
    Follows (placeType d t) (placeType u.declarations (t.rename κ)) s s'
      fun text t text' t' => text' = text ∧ h.Twin bs count t t' := by
  induction t with
  | absent => exact .pure ⟨rfl, ht⟩
  | primitive p => exact .pure ⟨rfl, ht⟩
  | object c =>
    refine .bind (placeClass_follows hp (hc c rfl) ht) ?_
    rintro i t _ t' ⟨rfl, ht'⟩
    exact .pure ⟨rfl, ht'⟩
  | array e ih =>
    refine .bind (ih hc) ?_
    rintro text t _ t' ⟨rfl, ht'⟩
    exact .pure ⟨rfl, ht'⟩

theorem placeTypes_follows (hp : code.Portable d g entry) {ts : List Ty}
    (hc : ∀ t ∈ ts, ∀ c ∈ t.class?, code.ListsClass d g entry c) (ht : h.Twin bs count s s') :
    Follows (ts.mapM (placeType d)) ((ts.map (Ty.rename κ)).mapM (placeType u.declarations)) s s'
      fun texts t texts' t' => texts' = texts ∧ h.Twin bs count t t' := by
  refine .mapM_map (fun t hmem s s' ht => ?_) ht
  exact placeType_follows hp (hc t hmem) ht

theorem memberEntry_follows (hp : code.Portable d g entry) {k : Member}
    (hk : ∀ c, k.Mentions c → code.ListsClass d g entry c) (ht : h.Twin bs count s s') :
    Follows (memberEntry d k) (memberEntry u.declarations (k.rename κ)) s s'
      fun row t row' t' => row' = row ∧ h.Twin bs count t t' := by
  have htypes : ∀ t ∈ k.types, ∀ c ∈ t.class?, code.ListsClass d g entry c :=
    fun t ht c hc => hk c (.inr ⟨t, ht, hc⟩)
  cases k with
  | field c name t =>
    refine .bind (placeClass_follows hp (hk c (.inl rfl)) ht) ?_
    rintro i t₁ _ t₁' ⟨rfl, ht₁⟩
    refine .bind (placeType_follows hp (htypes t (by simp [Member.types])) ht₁) ?_
    rintro text t₂ _ t₂' ⟨rfl, ht₂⟩
    exact .pure ⟨rfl, ht₂⟩
  | method c name ps t =>
    refine .bind (placeClass_follows hp (hk c (.inl rfl)) ht) ?_
    rintro i t₁ _ t₁' ⟨rfl, ht₁⟩
    refine .bind (placeType_follows hp (htypes t (by simp [Member.types])) ht₁) ?_
    rintro text t₂ _ t₂' ⟨rfl, ht₂⟩
    refine .bind (placeTypes_follows hp
      (fun t ht => htypes t (by simp [Member.types, ht])) ht₂) ?_
    rintro texts t₃ _ t₃' ⟨rfl, ht₃⟩
    exact .pure ⟨rfl, ht₃⟩
  | ctor c ps =>
    refine .bind (placeClass_follows hp (hk c (.inl rfl)) ht) ?_
    rintro i t₁ _ t₁' ⟨rfl, ht₁⟩
    refine .bind (placeTypes_follows hp htypes ht₁) ?_
    rintro texts t₂ _ t₂' ⟨rfl, ht₂⟩
    exact .pure ⟨rfl, ht₂⟩

theorem placeMember_follows (hp : code.Portable d g entry) (hm : code.ListsMember g entry m)
    (ht : h.Twin bs count s s') :
    Follows (placeMember d (some m)) (placeMember u.declarations (some (μ m))) s s'
      fun i t i' t' => i' = i ∧ h.Twin bs count t t' := by
  rw [placeMember, placeMember]
  refine .get ?_
  rw [ht.idxOf?_member hm]
  cases hi : s.memberIds.idxOf? m with
  | some i => exact .pure ⟨rfl, ht⟩
  | none =>
    cases hk : d.members[m]? with
    | none => exact .fail
    | some k =>
      simp only [h.members m k hm hk]
      refine .bind (memberEntry_follows hp (fun c => hm.mentions hk) ht) ?_
      rintro row t _ t' ⟨rfl, ht'⟩
      refine .get (.set (.pure ⟨by rw [ht'.members], ht'.addMember hm _⟩))

-- ---------------------------------------------------------------------------
-- Instructions in step
-- ---------------------------------------------------------------------------

theorem reference_follows (hp : code.Portable d g entry) {m : Option MemberId}
    (hm : ∀ x ∈ m, code.ListsMember g entry x) (ht : h.Twin bs count s s') :
    Follows (reference d m) (reference u.declarations (m.map μ)) s s'
      fun row t row' t' => row' = row ∧ h.Twin bs count t t' := by
  cases m with
  | none => exact .fail
  | some m =>
    refine .bind (placeMember_follows hp (hm m rfl) ht) ?_
    rintro i t _ t' ⟨rfl, ht'⟩
    exact .pure ⟨rfl, ht'⟩

theorem references_follows (hp : code.Portable d g entry) {ms : List (Option MemberId)}
    (hms : ∀ m, some m ∈ ms → code.ListsMember g entry m) (ht : h.Twin bs count s s') :
    Follows (ms.mapM (reference d)) ((ms.map (·.map μ)).mapM (reference u.declarations)) s s'
      fun rows t rows' t' => rows' = rows ∧ h.Twin bs count t t' := by
  refine .mapM_map (fun m hmem s s' ht => ?_) ht
  exact reference_follows hp (fun x hx => hms x (hx ▸ hmem)) ht

theorem typed_follows (hp : code.Portable d g entry) {t : Ty}
    (hc : ∀ c ∈ t.class?, code.ListsClass d g entry c) {f f' : String → Image.Instr}
    (hf : ∀ text, (f' text).normal = (f text).normal) (ht : h.Twin bs count s s') :
    Follows (placeType d t >>= fun text => pure (f text))
      (placeType u.declarations (t.rename κ) >>= fun text => pure (f' text)) s s'
      fun row t row' t' => row'.normal = row.normal ∧ h.Twin bs count t t' := by
  refine .bind (placeType_follows hp hc ht) ?_
  rintro text t _ t' ⟨rfl, ht'⟩
  exact .pure ⟨hf _, ht'⟩

theorem fieldEntry_follows (hp : code.Portable d g entry) (hm : code.ListsMember g entry m)
    (f : Int64 → Image.Instr) (ht : h.Twin bs count s s') :
    Follows (reference d (some m) >>= fun row => pure (f row))
      (reference u.declarations (some (μ m)) >>= fun row => pure (f row)) s s'
      fun row t row' t' => row'.normal = row.normal ∧ h.Twin bs count t t' := by
  refine .bind (reference_follows hp (m := some m) (by simpa using hm) ht) ?_
  rintro row t _ t' ⟨rfl, ht'⟩
  exact .pure ⟨rfl, ht'⟩

theorem callEntry_follows (hp : code.Portable d g entry) {c : Call} (hc : g.calls[site]? = some c)
    (hc' : u.graph.calls[site']? = some (c.rename μ))
    (hM : ∀ m, (Instruction.call site).Names g.calls m → code.ListsMember g entry m)
    (ht : h.Twin bs count s s') :
    Follows (instrEntry d g.calls (.call site)) (instrEntry u.declarations u.graph.calls
      (.call site')) s s' fun row t row' t' => row'.normal = row.normal ∧ h.Twin bs count t t' := by
  have htargets : (c.rename μ).targetList = c.targetList.map (·.map μ) := by
    cases hts : c.targets <;> simp [Call.targetList, Call.rename, hts]
  have hresolved : (c.rename μ).isResolved = c.isResolved := by
    simp [Call.isResolved, Call.rename]
  simp only [instrEntry, hc, hc', htargets, hresolved]
  refine .bind (reference_follows hp (fun m hm => hM m (.callee hc hm)) ht) ?_
  rintro row t₁ _ t₁' ⟨rfl, ht₁⟩
  refine .bind (references_follows hp (fun m hm => hM m (.target hc hm)) ht₁) ?_
  rintro rows t₂ _ t₂' ⟨rfl, ht₂⟩
  exact .pure ⟨rfl, ht₂⟩

theorem instrEntry_follows (hp : code.Portable d g entry) {i i' : Instruction}
    (hi : i.Matches κ μ g.calls u.graph.calls i')
    (hC : ∀ c ∈ i.type.class?, code.ListsClass d g entry c)
    (hM : ∀ m, i.Names g.calls m → code.ListsMember g entry m) (ht : h.Twin bs count s s') :
    Follows (instrEntry d g.calls i) (instrEntry u.declarations u.graph.calls i') s s'
      fun row t row' t' => row'.normal = row.normal ∧ h.Twin bs count t t' := by
  cases hi with
  | call hc hc' => exact callEntry_follows hp hc hc' hM ht
  | plain hsite =>
    cases i with
    | call site => cases hsite
    | nop => exact .pure ⟨rfl, ht⟩
    | not => exact .pure ⟨rfl, ht⟩
    | getField m => exact fieldEntry_follows hp (hM m .get) _ ht
    | putField m => exact fieldEntry_follows hp (hM m .put) _ ht
    | const t value =>
      refine typed_follows hp hC (fun text => ?_) ht
      rw [Image.normal_constantEntry, Image.normal_constantEntry, value.canonical_canonical]
    | new c => exact typed_follows hp (t := .object c) hC (fun _ => rfl) ht
    | _ => exact typed_follows hp hC (fun _ => rfl) ht

-- ---------------------------------------------------------------------------
-- Blocks in step
-- ---------------------------------------------------------------------------

theorem Twin.position (ht : h.Twin bs count s s') (hr : code.ListsBlock g r) :
    (s'.positions[β r]?).join = (s.positions[r]?).join := by
  refine Option.ext fun i => ?_
  rw [ht.positioned'.place, ht.positioned.place, List.getElem?_map, Option.map_eq_some_iff]
  constructor
  · rintro ⟨q, hq, heq⟩
    obtain rfl := h.blockNumbers.injOn (ht.blocksIn q (List.mem_of_getElem? hq)) hr heq
    exact hq
  · exact fun hi => ⟨r, hi, rfl⟩

theorem successors_follows (ht : h.Twin bs count s s') {succs : List (Option BlockRef)}
    (hsuccs : ∀ q, some q ∈ succs → code.ListsBlock g q) (owner owner' : MemberId) (id id' : Nat) :
    Follows
      (succs.mapM fun succ =>
        match succ.bind fun r => (s.positions[r]?).join with
        | some n => (pure (Encoder.position n) : Encode Int64)
        | none => throw (.nilSuccessor owner id))
      ((succs.map (·.map β)).mapM fun succ =>
        match succ.bind fun r => (s'.positions[r]?).join with
        | some n => (pure (Encoder.position n) : Encode Int64)
        | none => throw (.nilSuccessor owner' id')) s s'
      fun rows t rows' t' => rows' = rows ∧ t = s ∧ t' = s' := by
  refine .mapM_map (I := fun t t' => t = s ∧ t' = s') ?_ ⟨rfl, rfl⟩
  rintro succ hmem t t' ⟨rfl, rfl⟩
  cases succ with
  | none => exact .fail
  | some q =>
    simp only [Option.map_some, Option.bind_some, ht.position (hsuccs q hmem)]
    cases (t.positions[q]?).join with
    | none => exact .fail
    | some n => exact .pure ⟨rfl, rfl, rfl⟩

theorem blockEntry_follows (hp : code.Portable d g entry) (hr : code.ListsBlock g r)
    {b b' : Block} (hb : g.blocks[r]? = some b) (hb' : b.Matches κ μ β g.calls u.graph.calls b')
    (owner owner' : MemberId) (ht : h.Twin bs count s s') :
    Follows (blockEntry d g owner b) (blockEntry u.declarations u.graph owner' b') s s'
      fun row t row' t' => row'.normal = row.normal ∧ h.Twin bs count t t' := by
  rw [blockEntry, blockEntry, hb'.succs, hb'.mergeable]
  refine .get (.bind (successors_follows ht (fun q => hr.succ hb) owner owner' b.id b'.id) ?_)
  rintro succs _ _ _ ⟨rfl, rfl, rfl⟩
  refine .bind (Follows.mapM (P := fun row row' => row'.normal = row.normal)
    (forall₂_mem hb'.code) ?_ ht) ?_
  · rintro i i' ⟨hi, hmatch⟩ s s' ht
    exact instrEntry_follows hp hmatch (fun c hc => .body hr hb hi hc)
      (fun m hm => .named hr hb hi hm) ht
  · rintro rows t rows' t' ⟨heq, ht'⟩
    refine .pure ⟨?_, ht'⟩
    have hrows : rows'.map Image.Instr.normal = rows.map Image.Instr.normal := by
      rw [← List.forall₂_eq_eq_eq, List.forall₂_map_left_iff, List.forall₂_map_right_iff]
      exact heq.flip
    simp [Image.Block.normal, hrows]

theorem Twin.addBlock (ht : h.Twin bs count s s') {row row' : Image.Block}
    (hrow : row'.normal = row.normal) :
    h.Twin bs (count + 1) { s with blocks := s.blocks.push row }
      { s' with blocks := s'.blocks.push row' } :=
  { ht with
    positioned := ht.positioned.of_positions rfl
    positioned' := ht.positioned'.of_positions rfl
    blocks := by simp [ht.blocks, hrow]
    count := by simp [ht.count] }

theorem writeBlocks_follows (hp : code.Portable d g entry) (owner owner' : MemberId)
    (hrs : ∀ r ∈ rs, code.ListsBlock g r) (ht : h.Twin bs count s s') :
    Follows (writeBlocks d g owner rs) (writeBlocks u.declarations u.graph owner' (rs.map β)) s s'
      fun _ t _ t' => h.Twin bs (count + rs.length) t t' := by
  induction rs generalizing count s s' with
  | nil => exact .pure ht
  | cons r rest ih =>
    have hr := hrs r (by simp)
    obtain ⟨b, hb, -⟩ := hp.blocks r hr
    obtain ⟨b', hget', hb'⟩ := h.blocks r b hr hb
    rw [List.map_cons, writeBlocks, writeBlocks]
    simp only [hb, hget']
    refine .bind (blockEntry_follows hp hr hb hb' owner owner' ht) ?_
    rintro row t row' t' ⟨hrow, ht'⟩
    refine .modify ((ih (fun q hq => hrs q (by simp [hq])) (ht'.addBlock hrow)).mono ?_)
    intro _ r _ r' hr
    rwa [Nat.add_assoc, Nat.add_comm 1] at hr

-- ---------------------------------------------------------------------------
-- Walks in step
-- ---------------------------------------------------------------------------

theorem exists_of_reaches (h : u.Restores κ μ β d g code entry) (hp : code.Portable d g entry)
    (hr : code.ListsBlock g r) (hpath : u.graph.Reaches (β r) q') :
    ∃ q, code.ListsBlock g q ∧ β q = q' := by
  induction hpath with
  | refl => exact ⟨r, hr, rfl⟩
  | tail _ hedge ih =>
    obtain ⟨p, hlists, rfl⟩ := ih
    obtain ⟨b, hb, -⟩ := hp.blocks p hlists
    obtain ⟨b', hget, hb'⟩ := h.blocks p b hlists hb
    obtain ⟨b'', hget', hsucc⟩ := hedge
    obtain rfl := Option.some.inj (hget.symm.trans hget')
    rw [hb'.succs] at hsucc
    obtain ⟨succ, hmem, heq⟩ := List.mem_map.mp hsucc
    obtain ⟨q, rfl, rfl⟩ := Option.map_eq_some_iff.mp heq
    exact ⟨q, hlists.succ hb hmem, rfl⟩

theorem getD_mark (h : u.Restores κ μ β d g code entry) {seen seen' : Array Bool}
    (hr : code.ListsBlock g r) (hlt : r < seen.size) (hsize' : seen'.size = u.graph.blocks.size)
    (hseen : ∀ q, code.ListsBlock g q → seen'.getD (β q) false = seen.getD q false)
    (hq : code.ListsBlock g q) :
    (seen'.setIfInBounds (β r) true).getD (β q) false =
      (seen.setIfInBounds r true).getD q false := by
  have hseen := hseen q hq
  simp only [Array.getD_eq_getD_getElem?, Array.getElem?_setIfInBounds] at hseen ⊢
  by_cases heq : r = q
  · subst heq
    have hlt' : β r < seen'.size := hsize' ▸ h.blockNumbers.mapsTo hr
    simp [hlt, hlt']
  · have hne : β r ≠ β q := fun hβ => heq (h.blockNumbers.injOn hr hq hβ)
    simpa [heq, hne] using hseen

/-- Two walks that both come to an end find the same blocks in the same order. -/
theorem walkFrom_map (h : u.Restores κ μ β d g code entry) {seen seen' : Array Bool}
    {found stack listed listed' : List BlockRef} (hsize : seen.size = g.blocks.size)
    (hsize' : seen'.size = u.graph.blocks.size)
    (hseen : ∀ r, code.ListsBlock g r → seen'.getD (β r) false = seen.getD r false)
    (hstack : ∀ r ∈ stack, code.ListsBlock g r)
    (hwalk : g.walkFrom steps seen found stack = .ok listed)
    (hwalk' : u.graph.walkFrom steps' seen' (found.map β) (stack.map β) = .ok listed') :
    listed' = listed.map β := by
  fun_induction g.walkFrom steps seen found stack generalizing steps' seen' with
  | case1 steps seen found stack hdrop =>
    have hdrop' : (stack.map β).dropWhile (seen'.getD · false) = [] := by
      rw [Sweep.dropWhile_map_of_eq fun r hr => hseen r (hstack r hr), hdrop, List.map_nil]
    obtain rfl := Except.ok.inj hwalk
    rw [Graph.walkFrom_nil hdrop'] at hwalk'
    rw [← Except.ok.inj hwalk', List.map_reverse]
  | case2 seen found stack r rest hdrop steps b hb ih =>
    have hdrop' : (stack.map β).dropWhile (seen'.getD · false) = β r :: rest.map β := by
      rw [Sweep.dropWhile_map_of_eq fun r hr => hseen r (hstack r hr), hdrop, List.map_cons]
    have hmem : ∀ q ∈ r :: rest, q ∈ stack := fun q hq =>
      (List.dropWhile_sublist (seen.getD · false)).subset (hdrop ▸ hq)
    have hr := hstack r (hmem r (by simp))
    obtain ⟨b', hget, hb'⟩ := h.blocks r b hr hb
    have hnext : ∀ q ∈ b.succs.filterMap id ++ rest, code.ListsBlock g q := by
      intro q hq
      rcases List.mem_append.mp hq with hq | hq
      · exact hr.succ hb (by simpa using hq)
      · exact hstack q (hmem q (by simp [hq]))
    cases steps' with
    | zero =>
      rw [Graph.walkFrom, hdrop'] at hwalk'
      cases hwalk'
    | succ steps' =>
      rw [Graph.walkFrom_cons hdrop' hget] at hwalk'
      have hsuccs : b'.succs.filterMap id ++ rest.map β =
          (b.succs.filterMap id ++ rest).map β := by
        simp [hb'.succs, List.filterMap_map, List.map_filterMap]
      rw [hsuccs, ← List.map_cons] at hwalk'
      have hlt : r < seen.size := hsize ▸ (Array.getElem?_eq_some_iff.mp hb).1
      exact ih (by simpa using hsize) (by simpa using hsize')
        (fun q => h.getD_mark hr hlt hsize' hseen) hnext hwalk hwalk'
  | case3 => cases hwalk

theorem walk_map (h : u.Restores κ μ β d g code entry) (hp : code.Portable d g entry)
    (hr : code.ListsBlock g root) (hwalk : g.walk (some root) = .ok listed) :
    u.graph.walk (some (β root)) = .ok (listed.map β) := by
  have hin : ∀ q', u.graph.Reaches (β root) q' → q' < u.graph.blocks.size := by
    intro q' hpath
    obtain ⟨q, hq, rfl⟩ := h.exists_of_reaches hp hr hpath
    exact h.blockNumbers.mapsTo hq
  obtain ⟨listed', hwalk', -⟩ := Graph.lists_walk hin
  rw [hwalk', h.walkFrom_map (by simp [Graph.unseen]) (by simp [Graph.unseen]) ?_ ?_ hwalk hwalk']
  · intro r hr
    simp only [Graph.unseen, Array.getD_eq_getD_getElem?, Array.getElem?_replicate]
    split <;> split <;> rfl
  · simpa using hr

-- ---------------------------------------------------------------------------
-- Bodies in step
-- ---------------------------------------------------------------------------

theorem Twin.isPlaced (ht : h.Twin bs count s s') (hr : code.ListsBlock g r) :
    s'.isPlaced (β r) = s.isPlaced r := by
  rw [Encoder.isPlaced, Encoder.isPlaced, ht.position hr]

theorem Twin.blocks_size (ht : h.Twin bs count s s') : s'.blocks.size = s.blocks.size := by
  simpa using congrArg Array.size ht.blocks

theorem Twin.placeBlocks (hp : code.Portable d g entry) (ht : h.Twin bs bs.length s s')
    (hn : fresh.Nodup) (hin : ∀ r ∈ fresh, code.ListsBlock g r) (hnew : ∀ r ∈ fresh, r ∉ bs) :
    h.Twin (bs ++ fresh) bs.length (Encoder.placeBlocks fresh bs.length s)
      (Encoder.placeBlocks (fresh.map β) bs.length s') := by
  have hplaced := ht.positioned.placeBlocks hn hnew fun r hr => hp.block_lt (hin r hr)
  have hplaced' : Positioned u.graph ((bs ++ fresh).map β)
      (Encoder.placeBlocks (fresh.map β) bs.length s') := by
    have hn' : (fresh.map β).Nodup :=
      hn.map_on fun r hr q hq => h.blockNumbers.injOn (hin r hr) (hin q hq)
    rw [List.map_append, ← List.length_map β]
    refine ht.positioned'.placeBlocks hn' (fun q' hq' hold => ?_) fun q' hq' => ?_
    · obtain ⟨q, hq, rfl⟩ := List.mem_map.mp hq'
      obtain ⟨r, hr, heq⟩ := List.mem_map.mp hold
      exact hnew q hq (h.blockNumbers.injOn (ht.blocksIn r hr) (hin q hq) heq ▸ hr)
    · obtain ⟨q, hq, rfl⟩ := List.mem_map.mp hq'
      exact h.blockNumbers.mapsTo (hin q hq)
  rw [placeBlocks_eq] at hplaced hplaced' ⊢
  rw [placeBlocks_eq (fresh.map β)]
  exact { ht with
    positioned := hplaced
    positioned' := hplaced'
    blocksIn := List.forall_mem_append.mpr ⟨ht.blocksIn, hin⟩ }

theorem unplaced_map (ht : h.Twin bs count s s') {listed : List BlockRef}
    (hin : ∀ r ∈ listed, code.ListsBlock g r) :
    (listed.map β).filter (fun r => !s'.isPlaced r) =
      (listed.filter fun r => !s.isPlaced r).map β := by
  rw [List.filter_map]
  congr 1
  exact List.filter_congr fun r hr => by rw [Function.comp_apply, ht.isPlaced (hin r hr)]

theorem exists_walk (hp : code.Portable d g entry) (hroot : code.ListsBlock g root) :
    ∃ listed, g.walk (some root) = .ok listed ∧ listed.Nodup ∧
      ∀ r ∈ listed, code.ListsBlock g r := by
  obtain ⟨listed, hwalk, hn, -, hlisted⟩ :=
    Graph.lists_walk fun r hr => hp.block_lt (hroot.reaches hr)
  exact ⟨listed, hwalk, hn, fun r hr => hroot.reaches ((hlisted r).mp hr)⟩

theorem placeGraph_follows (hp : code.Portable d g entry) (hroot : code.ListsBlock g root)
    (owner owner' : MemberId) (ht : h.Twin bs bs.length s s') :
    Follows (placeGraph d g owner root) (placeGraph u.declarations u.graph owner' (β root)) s s'
      fun n t n' t' => n' = n ∧ ∃ bs', h.Twin bs' bs'.length t t' := by
  obtain ⟨listed, hwalk, hn, hin⟩ := exists_walk hp hroot
  have hposition := ht.position hroot
  rw [placeGraph, placeGraph]
  simp only [hwalk, h.walk_map hp hroot hwalk]
  refine .get ?_
  split
  · rename_i n hpos
    rw [hpos, Option.join_some, Option.join_eq_some_iff] at hposition
    simp only [hposition]
    exact .pure ⟨rfl, bs, ht⟩
  · rename_i hpos
    split
    · rename_i n hpos'
      rw [hpos', Option.join_some, eq_comm, Option.join_eq_some_iff] at hposition
      exact absurd hposition (hpos n)
    · refine .get ?_
      rw [unplaced_map ht hin, ht.blocks_size, ht.count]
      have hfresh : ∀ r ∈ listed.filter fun r => !s.isPlaced r, r ∉ bs := by
        intro r hr
        rw [← ht.positioned.isPlaced]
        simpa using (List.mem_filter.mp hr).2
      have hin' : ∀ r ∈ listed.filter fun r => !s.isPlaced r, code.ListsBlock g r :=
        fun r hr => hin r (List.mem_of_mem_filter hr)
      refine .set (.bind (writeBlocks_follows hp owner owner' hin'
        (ht.placeBlocks hp (hn.filter _) hin' hfresh)) ?_)
      intro _ t _ t' ht'
      rw [← List.length_append] at ht'
      exact .pure ⟨rfl, _, ht'⟩

theorem placeBodies_follows (hp : code.Portable d g entry) {code' : Registry}
    (hcode : ∀ m root, code.body? m = some root → code'.body? (μ m) = some (β root))
    (ms : List MemberId) (ht : h.Twin bs bs.length s s') :
    Follows (placeBodies d g code ms) (placeBodies u.declarations u.graph code' (ms.map μ)) s s'
      fun rows t rows' t' => rows' = rows ∧ ∃ bs', h.Twin bs' bs'.length t t' := by
  induction ms generalizing bs s s' with
  | nil => exact .pure ⟨rfl, bs, ht⟩
  | cons m rest ih =>
    rw [List.map_cons, placeBodies, placeBodies]
    cases hbody : code.body? m with
    | none => exact .fail
    | some root =>
      have hm : code.ListsMember g entry m := .body (by simp [Registry.body?_eq_some.mp hbody])
      simp only [hcode m root hbody]
      refine .bind (placeGraph_follows hp ⟨m, root, hbody, .refl⟩ m (μ m) ht) ?_
      rintro n t₁ _ t₁' ⟨rfl, bs₁, ht₁⟩
      refine .bind (placeMember_follows hp hm ht₁) ?_
      rintro i t₂ _ t₂' ⟨rfl, ht₂⟩
      refine .bind (ih ht₂) ?_
      rintro rows t₃ _ t₃' ⟨rfl, bs₃, ht₃⟩
      exact .pure ⟨rfl, bs₃, ht₃⟩

theorem twin_start (h : u.Restores κ μ β d g code entry) :
    h.Twin [] 0 (start g) (start u.graph) where
  classIds := rfl
  classesIn := by simp [start]
  classes := rfl
  memberIds := rfl
  membersIn := by simp [start]
  members := rfl
  positioned := .start g
  positioned' := .start u.graph
  blocksIn := by simp
  blocks := rfl
  count := rfl

theorem write_follows (h : u.Restores κ μ β d g code entry) (hp : code.Portable d g entry)
    {code' : Registry}
    (hcode : ∀ m root, code.body? m = some root → code'.body? (μ m) = some (β root))
    (order : List MemberId) :
    Follows (write d g code (some entry) order [])
      (write u.declarations u.graph code' (some u.entry) (order.map μ) []) (start g) (start u.graph)
      fun out t out' t' => out' = out ∧ ∃ bs, h.Twin bs bs.length t t' := by
  rw [h.main]
  refine .bind (placeMember_follows hp .entry h.twin_start) ?_
  rintro i t₁ _ t₁' ⟨rfl, ht₁⟩
  refine .bind (placeBodies_follows hp hcode order ht₁) ?_
  rintro rows t₂ _ t₂' ⟨rfl, bs₂, ht₂⟩
  exact .bind (.pure (Q := fun a t b t' => b = a ∧ h.Twin bs₂ bs₂.length t t') ⟨rfl, ht₂⟩)
    fun a t b t' hab => .pure ⟨by rw [hab.1], bs₂, hab.2⟩

end

end

end LinkUnit.Restores

end Linkage
