import Linkage.Proofs.Hierarchy
import Linkage.Proofs.Numbering

/-!
# Placing classes and members

The encoder gives classes and members their positions as it meets them. Positions never change, so
what was written early still says the right thing in the finished tables: every row is stated for
all numberings that agree with the positions given out so far.
-/

namespace Linkage.Image.Encoder

-- ---------------------------------------------------------------------------
-- Computations that succeed
-- ---------------------------------------------------------------------------

/-- A computation succeeds, with a result and a state after it that have a property, or it fails and
then `E` holds. With `E` false it succeeds; with `E` true the property is about its success only. -/
def Yields (E : Prop) (x : Encode α) (s : Encoder) (Q : α → Encoder → Prop) : Prop :=
  match x s with
  | .ok (a, s') => Q a s'
  | .error _ => E

section
variable {E : Prop} {x : Encode α} {f : α → Encode β} {s : Encoder} {Q : α → Encoder → Prop}
  {R : β → Encoder → Prop}

theorem Yields.pure (h : Q a s) : Yields E (pure a) s Q := h

theorem Yields.fail (h : E) : Yields E (throw e) s Q := h

theorem Yields.mono {Q' : α → Encoder → Prop} (hx : Yields E x s Q)
    (h : ∀ a s', Q a s' → Q' a s') : Yields E x s Q' := by
  unfold Yields at hx ⊢
  cases hrun : x s with
  | error e =>
    rw [hrun] at hx
    exact hx
  | ok r =>
    rw [hrun] at hx
    exact h r.1 r.2 hx

theorem Yields.bind (hx : Yields E x s Q) (hf : ∀ a s', Q a s' → Yields E (f a) s' R) :
    Yields E (x >>= f) s R := by
  show match x s >>= fun p => f p.1 p.2 with
    | .ok (b, s') => R b s'
    | .error _ => E
  unfold Yields at hx
  cases hrun : x s with
  | error e =>
    rw [hrun] at hx
    exact hx
  | ok r =>
    rw [hrun] at hx
    exact hf r.1 r.2 hx

theorem Yields.get {f : Encoder → Encode β} (h : Yields E (f s) s R) :
    Yields E (MonadState.get >>= f) s R := h

theorem Yields.set {f : PUnit → Encode β} {t : Encoder} (h : Yields E (f ⟨⟩) t R) :
    Yields E (MonadStateOf.set t >>= f) s R := h

theorem Yields.modify {f : PUnit → Encode β} {t : Encoder → Encoder}
    (h : Yields E (f ⟨⟩) (t s) R) : Yields E (modify t >>= f) s R := h

theorem Yields.of_ok (hx : Yields E x s Q) (hrun : x s = .ok (a, s')) : Q a s' := by
  unfold Yields at hx
  rwa [hrun] at hx

theorem Yields.exists_ok (hx : Yields False x s Q) : ∃ a s', x s = .ok (a, s') ∧ Q a s' := by
  unfold Yields at hx
  cases hrun : x s with
  | error e =>
    rw [hrun] at hx
    exact hx.elim
  | ok r =>
    rw [hrun] at hx
    exact ⟨r.1, r.2, rfl, hx⟩

end

-- ---------------------------------------------------------------------------
-- Numberings that agree with a list
-- ---------------------------------------------------------------------------

def Agrees (κ : Nat → Nat) (l : List Nat) : Prop := ∀ (i : Nat) x, l[i]? = some x → κ x = i

theorem Agrees.mono (h : l <+: l') (hκ : Agrees κ l') : Agrees κ l := by
  intro i x hx
  obtain ⟨more, rfl⟩ := h
  exact hκ i x (by rw [List.getElem?_append_left (List.getElem?_eq_some_iff.mp hx).1, hx])

theorem agrees_number (hn : l.Nodup) : Agrees (number l) l := fun _ _ h => number_of_getElem? hn h

-- ---------------------------------------------------------------------------
-- Classes
-- ---------------------------------------------------------------------------

structure SameRest (s s' : Encoder) : Prop where
  memberIds : s'.memberIds = s.memberIds
  members : s'.members = s.members
  positions : s'.positions = s.positions
  blocks : s'.blocks = s.blocks

/-- What placing classes on a way up adds to the table: those of them that are `new`, with rows. -/
structure Adds (d : Declarations) (s s' : Encoder) (cs new : List ClassId) : Prop where
  classIds : s'.classIds = s.classIds ++ new
  rest : SameRest s s'
  nodup : new.Nodup
  subset : ∀ c ∈ new, c ∈ cs
  there : ∀ c ∈ new, ∃ k, d.classes[c]? = some k
  fresh : ∀ c ∈ new, c ∉ s.classIds
  rows : ∀ κ, Agrees κ s'.classIds →
    s'.classes.toList = s.classes.toList ++ new.map fun c => classRow κ (d.classAt c)
  supers : ∀ c ∈ new, ∀ p, d.Extends c p → p ∈ s'.classIds

theorem getElem?_of_idxOf? {l : List Nat} (h : l.idxOf? x = some i) : l[i]? = some x := by
  obtain ⟨hi, hx, -⟩ := List.idxOf?_eq_some_iff.mp h
  rw [List.getElem?_eq_getElem hi, hx]

section
variable {E : Prop} {d : Declarations} {s : Encoder} {c p : ClassId} {cs supers new : List ClassId}

theorem placeClasses_known (h : c ∈ s.classIds) :
    Yields E (placeClasses d (c :: supers)) s fun i s' =>
      (∃ new, Adds d s s' (c :: supers) new) ∧ s'.classIds[i]? = some c := by
  obtain ⟨i, hi⟩ := Option.isSome_iff_exists.mp (List.isSome_idxOf?.mpr h)
  rw [placeClasses]
  refine .get ?_
  simp only [hi]
  refine .pure ⟨⟨[], ?_⟩, getElem?_of_idxOf? hi⟩
  exact ⟨by simp, ⟨rfl, rfl, rfl, rfl⟩, .nil, by simp, by simp, by simp, by simp, by simp⟩

theorem Adds.top {k : ClassDecl} (hc : c ∉ s.classIds) (hk : d.classes[c]? = some k)
    (htop : d.superOf c = none) :
    Adds d s { s with
      classIds := s.classIds ++ [c], classes := s.classes.push { name := k.name } } [c] [c] := by
  have hsuper : k.super = none := by simpa [Declarations.superOf, hk] using htop
  refine ⟨rfl, ⟨rfl, rfl, rfl, rfl⟩, by simp, by simp, by simpa using ⟨k, hk⟩, by simpa using hc,
    fun κ _ => ?_, ?_⟩
  · simp [classRow, Declarations.classAt_eq hk, hsuper]
  · intro x hx p hp
    obtain rfl := List.mem_singleton.mp hx
    simp [Declarations.Extends, htop] at hp

/-- The class is entered first, without its superclass; its row is set once that one is placed. -/
theorem Adds.step {k : ClassDecl} {s' : Encoder} (hc : c ∉ s.classIds)
    (hk : d.classes[c]? = some k) (hext : d.Extends c p)
    (h : Adds d
      { s with classIds := s.classIds ++ [c], classes := s.classes.push { name := k.name } }
      s' cs new) (habove : s'.classIds[i]? = some p) :
    Adds d s { s' with
      classes := s'.classes.setIfInBounds s.classes.size
        { name := k.name, super := position (i + 1) } } (c :: cs) (c :: new) := by
  have hsuper : k.super = some p := by
    simpa [Declarations.Extends, Declarations.superOf, hk] using hext
  refine ⟨by simp [h.classIds], ⟨h.rest.memberIds, h.rest.members, h.rest.positions,
    h.rest.blocks⟩, List.nodup_cons.mpr ⟨fun hnew => ?_, h.nodup⟩, ?_,
    List.forall_mem_cons.mpr ⟨⟨k, hk⟩, h.there⟩, ?_, fun κ hκ => ?_, ?_⟩
  · exact h.fresh c hnew (by simp)
  · rintro x (_ | ⟨_, hx⟩)
    · exact List.mem_cons_self
    · exact List.mem_cons_of_mem c (h.subset x hx)
  · rintro x (_ | ⟨_, hx⟩)
    · exact hc
    · have hfresh := h.fresh x hx
      simp only [List.mem_append, not_or] at hfresh
      exact hfresh.1
  · have hrows := h.rows κ hκ
    have hp : κ p = i := hκ i p habove
    simp only [Array.toList_push] at hrows
    simp [hrows, classRow, Declarations.classAt_eq hk, hsuper, hp]
  · rintro x (_ | ⟨_, hx⟩) q hq
    · obtain rfl : p = q := Option.some.inj (hext.symm.trans hq)
      exact List.mem_of_getElem? habove
    · exact h.supers x hx q hq

/-- The way up may lead back into itself. Where it does it has come to a class with a position. -/
theorem placeClasses_yields (hl : d.Climb known cs) (hknown : ∀ c ∈ known, c ∈ s.classIds)
    (hex : ∀ c ∈ cs, d.classes[c]? = none → E) (hsize : s.classes.size = s.classIds.length) :
    Yields E (placeClasses d cs) s fun i s' =>
      (∃ new, Adds d s s' cs new) ∧ s'.classIds[i]? = cs.head? := by
  induction hl generalizing s with
  | known hc => exact placeClasses_known (hknown _ hc)
  | @top known c htop =>
    by_cases hc : c ∈ s.classIds
    · exact placeClasses_known hc
    have hnone : s.classIds.idxOf? c = none := List.idxOf?_eq_none_iff.mpr hc
    rw [placeClasses]
    refine .get ?_
    cases hk : d.classes[c]? with
    | none =>
      simp only [hnone]
      exact .fail (hex c (by simp) hk)
    | some k =>
      simp only [hnone]
      refine .set (.pure ⟨⟨[c], .top hc hk htop⟩, by simp [hsize]⟩)
  | @step known c p supers hs hl ih =>
    by_cases hc : c ∈ s.classIds
    · exact placeClasses_known hc
    have hnone : s.classIds.idxOf? c = none := List.idxOf?_eq_none_iff.mpr hc
    rw [placeClasses]
    refine .get ?_
    cases hk : d.classes[c]? with
    | none =>
      simp only [hnone]
      exact .fail (hex c (by simp) hk)
    | some k =>
      -- the superclasses are placed when the class is in the table already, so in another state
      have ih := ih (s := { s with
          classIds := s.classIds ++ [c], classes := s.classes.push { name := k.name } })
        (List.forall_mem_cons.mpr ⟨by simp, fun x hx => by simp [hknown x hx]⟩)
        (fun x hx => hex x (by simp [hx])) (by simp [hsize])
      simp only [hnone, List.isEmpty_cons, Bool.false_eq_true, ↓reduceIte]
      refine .set (.bind ih ?_)
      rintro i s' ⟨⟨new, hadds⟩, habove⟩
      refine .modify (.pure ⟨⟨c :: new, hadds.step hc hk hs habove⟩, ?_⟩)
      simp [hadds.classIds, hsize]

end

-- ---------------------------------------------------------------------------
-- Tables
-- ---------------------------------------------------------------------------

/-- The classes and members that may be placed: all are declared, unless `E`, and classes come with
their superclasses. -/
structure Placeable (E : Prop) (d : Declarations) (C : Set ClassId) (M : Set MemberId) : Prop where
  classes : ∀ c ∈ C, d.classes[c]? = none → E
  supers : ∀ c ∈ C, ∀ p, d.Extends c p → p ∈ C
  members : ∀ m ∈ M, d.members[m]? = none → E
  mentions : ∀ m ∈ M, ∀ k, d.members[m]? = some k → ∀ c, k.Mentions c → c ∈ C

/-- What holds of the class and member tables between steps. -/
structure Tables (d : Declarations) (C : Set ClassId) (M : Set MemberId) (s : Encoder) : Prop where
  classesNodup : s.classIds.Nodup
  membersNodup : s.memberIds.Nodup
  classesIn : ∀ c ∈ s.classIds, c ∈ C
  membersIn : ∀ m ∈ s.memberIds, m ∈ M
  classesThere : ∀ c ∈ s.classIds, ∃ k, d.classes[c]? = some k
  membersThere : ∀ m ∈ s.memberIds, ∃ k, d.members[m]? = some k
  classRows : ∀ κ, Agrees κ s.classIds →
    s.classes.toList = s.classIds.map fun c => classRow κ (d.classAt c)
  memberRows : ∀ κ, Agrees κ s.classIds →
    s.members.toList = s.memberIds.map fun m => memberRow κ (d.memberAt m)
  supers : ∀ c ∈ s.classIds, ∀ p, d.Extends c p → p ∈ s.classIds
  mentions : ∀ m ∈ s.memberIds, ∀ c, (d.memberAt m).Mentions c → c ∈ s.classIds

structure ClassStep (d : Declarations) (C : Set ClassId) (M : Set MemberId) (s s' : Encoder) :
    Prop where
  tables : Tables d C M s'
  classIds : s.classIds <+: s'.classIds
  rest : SameRest s s'

section
variable {E : Prop} {d : Declarations} {C : Set ClassId} {M : Set MemberId} {s s' s'' : Encoder}

theorem SameRest.trans (h : SameRest s s') (h' : SameRest s' s'') : SameRest s s'' :=
  ⟨h'.memberIds.trans h.memberIds, h'.members.trans h.members, h'.positions.trans h.positions,
    h'.blocks.trans h.blocks⟩

theorem ClassStep.refl (h : Tables d C M s) : ClassStep d C M s s :=
  ⟨h, List.prefix_rfl, rfl, rfl, rfl, rfl⟩

theorem ClassStep.trans (h : ClassStep d C M s s') (h' : ClassStep d C M s' s'') :
    ClassStep d C M s s'' :=
  ⟨h'.tables, h.classIds.trans h'.classIds, h.rest.trans h'.rest⟩

theorem Tables.classes_size (h : Tables d C M s) : s.classes.size = s.classIds.length := by
  rw [← Array.length_toList, h.classRows _ (agrees_number h.classesNodup), List.length_map]

theorem Tables.members_size (h : Tables d C M s) : s.members.size = s.memberIds.length := by
  rw [← Array.length_toList, h.memberRows _ (agrees_number h.classesNodup), List.length_map]

theorem Tables.withBlocks (h : Tables d C M s) (positions : Array (Option Nat))
    (blocks : Array Block) : Tables d C M { s with positions, blocks } :=
  ⟨h.classesNodup, h.membersNodup, h.classesIn, h.membersIn, h.classesThere, h.membersThere,
    h.classRows, h.memberRows, h.supers, h.mentions⟩

theorem Tables.adds (h : Tables d C M s) (hC : ∀ c ∈ cs, c ∈ C) (hadds : Adds d s s' cs new) :
    ClassStep d C M s s' := by
  have hpre : s.classIds <+: s'.classIds := ⟨new, hadds.classIds.symm⟩
  refine ⟨⟨?_, ?_, ?_, ?_, ?_, ?_, ?_, ?_, ?_, ?_⟩, hpre, hadds.rest⟩
  · rw [hadds.classIds]
    refine List.nodup_append.mpr ⟨h.classesNodup, hadds.nodup, ?_⟩
    rintro c hc _ hc' rfl
    exact hadds.fresh c hc' hc
  · rw [hadds.rest.memberIds]
    exact h.membersNodup
  · rw [hadds.classIds]
    exact List.forall_mem_append.mpr ⟨h.classesIn, fun c hc => hC c (hadds.subset c hc)⟩
  · rw [hadds.rest.memberIds]
    exact h.membersIn
  · rw [hadds.classIds]
    exact List.forall_mem_append.mpr ⟨h.classesThere, hadds.there⟩
  · rw [hadds.rest.memberIds]
    exact h.membersThere
  · intro κ hκ
    rw [hadds.rows κ hκ, h.classRows κ (hκ.mono hpre), hadds.classIds, List.map_append]
  · intro κ hκ
    rw [hadds.rest.members, hadds.rest.memberIds]
    exact h.memberRows κ (hκ.mono hpre)
  · intro c hc p hp
    rw [hadds.classIds] at hc
    rcases List.mem_append.mp hc with hc | hc
    · exact hpre.subset (h.supers c hc p hp)
    · exact hadds.supers c hc p hp
  · rw [hadds.rest.memberIds]
    exact fun m hm c hc => hpre.subset (h.mentions m hm c hc)

theorem placeClass_yields (hd : Placeable E d C M) (h : Tables d C M s) (hc : c ∈ C) :
    Yields E (placeClass d c) s fun i s' => ClassStep d C M s s' ∧ s'.classIds[i]? = some c := by
  have hup : ∀ x, Relation.ReflTransGen d.Extends c x → x ∈ C := by
    intro x hx
    induction hx with
    | refl => exact hc
    | tail _ hstep ih => exact hd.supers _ ih _ hstep
  obtain ⟨supers, hanc, hl⟩ := d.climb_ancestry c
  have hC : ∀ x ∈ c :: supers, x ∈ C := fun x hx =>
    hup x (Declarations.reaches_of_mem_ancestry (hanc ▸ hx))
  rw [placeClass, hanc]
  refine (placeClasses_yields hl (by simp) (fun x hx => hd.classes x (hC x hx))
    h.classes_size).mono ?_
  rintro i s' ⟨⟨new, hadds⟩, hi⟩
  exact ⟨h.adds hC hadds, hi⟩

-- ---------------------------------------------------------------------------
-- Types and members
-- ---------------------------------------------------------------------------

/-- The text of a type, in every numbering that agrees with the classes placed so far. -/
def Spelled (t : Ty) (text : String) (s : Encoder) : Prop :=
  (∀ κ, Agrees κ s.classIds → text = t.spelling κ) ∧ ∀ c ∈ t.class?, c ∈ s.classIds

theorem Spelled.mono (h : Spelled t text s) (hpre : s.classIds <+: s'.classIds) :
    Spelled t text s' :=
  ⟨fun κ hκ => h.1 κ (hκ.mono hpre), fun c hc => hpre.subset (h.2 c hc)⟩

theorem placeType_yields (hd : Placeable E d C M) (h : Tables d C M s) {t : Ty}
    (ht : ∀ c ∈ t.class?, c ∈ C) :
    Yields E (placeType d t) s fun text s' => ClassStep d C M s s' ∧ Spelled t text s' := by
  induction t generalizing s with
  | absent => exact .pure ⟨.refl h, fun _ _ => rfl, by simp [Ty.class?]⟩
  | primitive p => exact .pure ⟨.refl h, fun _ _ => rfl, by simp [Ty.class?]⟩
  | object c =>
    refine .bind (placeClass_yields hd h (ht c rfl)) ?_
    rintro i s' ⟨hstep, hi⟩
    refine .pure ⟨hstep, fun κ hκ => ?_, ?_⟩
    · rw [Ty.spelling, hκ i c hi]
    · rintro _ ⟨⟩
      exact List.mem_of_getElem? hi
  | array t ih =>
    refine .bind (ih h ht) ?_
    rintro text s' ⟨hstep, hspelled⟩
    exact .pure ⟨hstep, fun κ hκ => by rw [Ty.spelling, hspelled.1 κ hκ], hspelled.2⟩

theorem yields_mapM {R : Encoder → Encoder → Prop} {I : Encoder → Prop} {f : α → Encode β}
    {Q : α → β → Encoder → Prop} {xs : List α} (hrefl : ∀ s, I s → R s s)
    (htrans : ∀ s s' s'', R s s' → R s' s'' → R s s'') (hI : ∀ s s', R s s' → I s')
    (hQ : ∀ a b s s', Q a b s → R s s' → Q a b s')
    (hf : ∀ a ∈ xs, ∀ s, I s → Yields E (f a) s fun b s' => R s s' ∧ Q a b s') (h : I s) :
    Yields E (xs.mapM f) s fun bs s' => R s s' ∧ List.Forall₂ (Q · · s') xs bs := by
  induction xs generalizing s with
  | nil => exact .pure ⟨hrefl s h, .nil⟩
  | cons a xs ih =>
    rw [List.mapM_cons]
    refine .bind (hf a (by simp) s h) ?_
    rintro b s' ⟨hstep, hb⟩
    refine .bind (ih (fun a ha => hf a (by simp [ha])) (hI s s' hstep)) ?_
    rintro bs s'' ⟨hstep', hbs⟩
    exact .pure ⟨htrans s s' s'' hstep hstep', .cons (hQ a b s' s'' hb hstep') hbs⟩

theorem eq_map_of_forall₂ {P : α → β → Prop} {f : α → β} (h : List.Forall₂ P xs ys)
    (hf : ∀ a b, P a b → b = f a) : ys = xs.map f := by
  induction h with
  | nil => rfl
  | cons hab _ ih => rw [List.map_cons, hf _ _ hab, ih]

theorem placeTypes_yields (hd : Placeable E d C M) (h : Tables d C M s) (ts : List Ty)
    (ht : ∀ t ∈ ts, ∀ c ∈ t.class?, c ∈ C) :
    Yields E (ts.mapM (placeType d)) s fun texts s' =>
      ClassStep d C M s s' ∧ (∀ κ, Agrees κ s'.classIds → texts = ts.map (Ty.spelling κ)) ∧
        ∀ t ∈ ts, ∀ c ∈ t.class?, c ∈ s'.classIds := by
  refine (yields_mapM (R := ClassStep d C M) (I := Tables d C M) (Q := Spelled)
    (fun _ => .refl) (fun _ _ _ => .trans) (fun _ _ hs => hs.tables)
    (fun _ _ _ _ hq hs => hq.mono hs.classIds)
    (fun t hmem s h => placeType_yields hd h (ht t hmem)) h).mono ?_
  rintro texts s' ⟨hstep, hall⟩
  refine ⟨hstep, fun κ hκ => eq_map_of_forall₂ hall fun t text ht => ht.1 κ hκ, fun t hmem => ?_⟩
  obtain ⟨text, -, ht⟩ := exists_of_forall₂ hall hmem
  exact ht.2

theorem memberEntry_yields (hd : Placeable E d C M) (h : Tables d C M s) {k : Linkage.Member}
    (hk : ∀ c, k.Mentions c → c ∈ C) :
    Yields E (memberEntry d k) s fun row s' =>
      ClassStep d C M s s' ∧ (∀ κ, Agrees κ s'.classIds → row = memberRow κ k) ∧
        ∀ c, k.Mentions c → c ∈ s'.classIds := by
  have htypes : ∀ t ∈ k.types, ∀ c ∈ t.class?, c ∈ C :=
    fun t ht c hc => hk c (.inr ⟨t, ht, hc⟩)
  cases k with
  | field c name t =>
    refine .bind (placeClass_yields hd h (hk c (.inl rfl))) ?_
    rintro i s₁ ⟨hstep, hi⟩
    refine .bind (placeType_yields hd hstep.tables (htypes t (by simp [Linkage.Member.types]))) ?_
    rintro text s₂ ⟨hstep', hspelled⟩
    refine .pure ⟨hstep.trans hstep', fun κ hκ => ?_, ?_⟩
    · rw [memberRow, hκ.mono hstep'.classIds i c hi, hspelled.1 κ hκ]
    · rintro x (rfl | ⟨t', ht', hx⟩)
      · exact hstep'.classIds.subset (List.mem_of_getElem? hi)
      · obtain rfl := List.mem_singleton.mp ht'
        exact hspelled.2 x hx
  | method c name ps t =>
    refine .bind (placeClass_yields hd h (hk c (.inl rfl))) ?_
    rintro i s₁ ⟨hstep₁, hi⟩
    refine .bind (placeType_yields hd hstep₁.tables (htypes t (by simp [Linkage.Member.types]))) ?_
    rintro text s₂ ⟨hstep₂, hspelled⟩
    refine .bind (placeTypes_yields hd hstep₂.tables ps
      fun t ht => htypes t (by simp [Linkage.Member.types, ht])) ?_
    rintro texts s₃ ⟨hstep₃, htexts, hparams⟩
    have hspelled := hspelled.mono hstep₃.classIds
    have hstep := hstep₂.trans hstep₃
    refine .pure ⟨hstep₁.trans hstep, fun κ hκ => ?_, ?_⟩
    · rw [memberRow, hκ.mono hstep.classIds i c hi, hspelled.1 κ hκ, htexts κ hκ]
    · rintro x (rfl | ⟨t', ht', hx⟩)
      · exact hstep.classIds.subset (List.mem_of_getElem? hi)
      · rcases List.mem_cons.mp ht' with rfl | ht'
        · exact hspelled.2 x hx
        · exact hparams t' ht' x hx
  | ctor c ps =>
    refine .bind (placeClass_yields hd h (hk c (.inl rfl))) ?_
    rintro i s₁ ⟨hstep₁, hi⟩
    refine .bind (placeTypes_yields hd hstep₁.tables ps fun t ht => htypes t ht) ?_
    rintro texts s₂ ⟨hstep₂, htexts, hparams⟩
    refine .pure ⟨hstep₁.trans hstep₂, fun κ hκ => ?_, ?_⟩
    · rw [memberRow, hκ.mono hstep₂.classIds i c hi, htexts κ hκ]
    · rintro x (rfl | ⟨t', ht', hx⟩)
      · exact hstep₂.classIds.subset (List.mem_of_getElem? hi)
      · exact hparams t' ht' x hx

structure Grows (d : Declarations) (C : Set ClassId) (M : Set MemberId) (s s' : Encoder) :
    Prop where
  tables : Tables d C M s'
  classIds : s.classIds <+: s'.classIds
  memberIds : s.memberIds <+: s'.memberIds

theorem Grows.trans (h : Grows d C M s s') (h' : Grows d C M s' s'') : Grows d C M s s'' :=
  ⟨h'.tables, h.classIds.trans h'.classIds, h.memberIds.trans h'.memberIds⟩

structure Step (d : Declarations) (C : Set ClassId) (M : Set MemberId) (s s' : Encoder) : Prop
    extends Grows d C M s s' where
  positions : s'.positions = s.positions
  blocks : s'.blocks = s.blocks

theorem Step.refl (h : Tables d C M s) : Step d C M s s :=
  ⟨⟨h, List.prefix_rfl, List.prefix_rfl⟩, rfl, rfl⟩

theorem Step.trans (h : Step d C M s s') (h' : Step d C M s' s'') : Step d C M s s'' :=
  ⟨h.toGrows.trans h'.toGrows, h'.positions.trans h.positions, h'.blocks.trans h.blocks⟩

theorem ClassStep.step (h : ClassStep d C M s s') : Step d C M s s' :=
  ⟨⟨h.tables, h.classIds, h.rest.memberIds ▸ List.prefix_rfl⟩, h.rest.positions, h.rest.blocks⟩

theorem Tables.addMember (h : Tables d C M s) (hm : m ∈ M) (hk : d.members[m]? = some k)
    (hfresh : m ∉ s.memberIds)
    (hrow : ∀ κ, Agrees κ s.classIds → row = memberRow κ (d.memberAt m))
    (hmentions : ∀ c, (d.memberAt m).Mentions c → c ∈ s.classIds) :
    Step d C M s { s with memberIds := s.memberIds ++ [m], members := s.members.push row } := by
  refine ⟨⟨⟨h.classesNodup, ?_, h.classesIn, ?_, h.classesThere, ?_, h.classRows, ?_, h.supers, ?_⟩,
    List.prefix_rfl, List.prefix_append _ _⟩, rfl, rfl⟩
  · simpa using h.membersNodup.concat hfresh
  · exact List.forall_mem_append.mpr ⟨h.membersIn, by simpa using hm⟩
  · exact List.forall_mem_append.mpr ⟨h.membersThere, by simpa using ⟨k, hk⟩⟩
  · intro κ hκ
    simp [h.memberRows κ hκ, hrow κ hκ]
  · exact List.forall_mem_append.mpr ⟨h.mentions, by simpa using hmentions⟩

theorem placeMember_yields (hd : Placeable E d C M) (h : Tables d C M s) (hm : m ∈ M) :
    Yields E (placeMember d (some m)) s fun i s' =>
      Step d C M s s' ∧ s'.memberIds[i]? = some m := by
  rw [placeMember]
  refine .get ?_
  cases hidx : s.memberIds.idxOf? m with
  | some i => exact .pure ⟨.refl h, getElem?_of_idxOf? hidx⟩
  | none =>
    cases hk : d.members[m]? with
    | none => exact .fail (hd.members m hm hk)
    | some k =>
      refine .bind (memberEntry_yields hd h (hd.mentions m hm k hk)) ?_
      rintro row s' ⟨hstep, hrow, hmentions⟩
      have hfresh : m ∉ s'.memberIds := by
        rw [hstep.rest.memberIds]
        exact List.idxOf?_eq_none_iff.mp hidx
      rw [← Declarations.memberAt_eq hk] at hrow hmentions
      have hadd := hstep.tables.addMember hm hk hfresh hrow hmentions
      refine .get (.set (.pure ⟨hstep.step.trans hadd, ?_⟩))
      simp [hstep.tables.members_size]

end

end Linkage.Image.Encoder
