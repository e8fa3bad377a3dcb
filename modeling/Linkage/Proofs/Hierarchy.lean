import Linkage.Image.Decode
import Linkage.Proofs.Portable
import Mathlib.Data.List.Perm.Subperm

/-!
# Class hierarchies

The list of a class and its superclasses, which is complete in a hierarchy without cycles, and how a
hierarchy is set up again from the class table of an image.
-/

namespace Linkage

open Relation (TransGen ReflTransGen)

-- ---------------------------------------------------------------------------
-- Lineages
-- ---------------------------------------------------------------------------

namespace Declarations

/-- A class followed by all its superclasses, up to one that has none. -/
inductive Lineage (d : Declarations) : List ClassId → Prop
  | top {c} : d.superOf c = none → Lineage d [c]
  | step {c s supers} : d.Extends c s → Lineage d (s :: supers) → Lineage d (c :: s :: supers)

section
variable {d : Declarations} {c s x : ClassId} {cs supers : List ClassId}

theorem reaches_of_mem_chain (n : Nat) (h : x ∈ d.chain n (some c)) :
    ReflTransGen d.Extends c x := by
  induction n generalizing c with
  | zero => simp [chain] at h
  | succ n ih =>
    rcases List.mem_cons.mp h with rfl | h
    · exact .refl
    · cases hs : d.superOf c with
      | none =>
        rw [hs] at h
        cases n <;> simp [chain] at h
      | some s =>
        rw [hs] at h
        exact .head hs (ih h)

theorem reaches_of_mem_ancestry (h : x ∈ d.ancestry c) : ReflTransGen d.Extends c x :=
  reaches_of_mem_chain _ h

/-- The way up from a class until it ends or comes to a class that is known already. -/
inductive Climb (d : Declarations) : (known way : List ClassId) → Prop
  | top {known c} : d.superOf c = none → Climb d known [c]
  | known {known c way} : c ∈ known → Climb d known (c :: way)
  | step {known c s way} : d.Extends c s → Climb d (c :: known) (s :: way) →
      Climb d known (c :: s :: way)

/-- With cycles or without, the way up comes to an end or back to where it was. -/
theorem climb_chain (n : Nat) (known : List ClassId) (hn : known.Nodup)
    (hknown : ∀ b ∈ known, b < d.classes.size) (hsize : d.classes.size < n + known.length) :
    ∃ way, d.chain n (some c) = c :: way ∧ d.Climb known (c :: way) := by
  induction n generalizing c known with
  | zero =>
    have hsub : known ⊆ List.range d.classes.size :=
      fun b hb => List.mem_range.mpr (hknown b hb)
    have := (List.subperm_of_subset hn hsub).length_le
    simp only [List.length_range] at this
    omega
  | succ n ih =>
    by_cases hc : c ∈ known
    · exact ⟨_, rfl, .known hc⟩
    cases hs : d.superOf c with
    | none => exact ⟨[], by cases n <;> simp [chain, hs], .top hs⟩
    | some s =>
      have hlt : c < d.classes.size := by
        obtain ⟨k, hk, -⟩ := Option.bind_eq_some_iff.mp hs
        exact (Array.getElem?_eq_some_iff.mp hk).1
      obtain ⟨way, hchain, hclimb⟩ := ih (c := s) (c :: known) (List.nodup_cons.mpr ⟨hc, hn⟩)
        (List.forall_mem_cons.mpr ⟨hlt, hknown⟩) (by simp only [List.length_cons]; omega)
      exact ⟨s :: way, by rw [chain, hs, hchain], .step hs hclimb⟩

theorem climb_ancestry (d : Declarations) (c : ClassId) :
    ∃ way, d.ancestry c = c :: way ∧ d.Climb [] (c :: way) :=
  climb_chain (d.classes.size + 1) [] .nil (by simp) (by simp)

theorem Lineage.reaches (h : d.Lineage (c :: supers)) (hx : x ∈ supers) :
    TransGen d.Extends c x := by
  induction supers generalizing c with
  | nil => simp at hx
  | cons s supers ih =>
    cases h with
    | step hs hl =>
      rcases List.mem_cons.mp hx with rfl | hx
      · exact .single hs
      · exact .head hs (ih hl hx)

theorem Lineage.mem_of_reaches (h : d.Lineage (c :: supers)) (hx : ReflTransGen d.Extends c x) :
    x ∈ c :: supers := by
  induction hx using ReflTransGen.head_induction_on generalizing supers with
  | refl => simp
  | head hs _ ih =>
    cases h with
    | top hnone => simp [Extends, hnone] at hs
    | step hs' hl =>
      obtain rfl := Option.some.inj (hs.symm.trans hs')
      exact List.mem_cons_of_mem _ (ih hl)

theorem Lineage.nodup (h : d.Lineage cs)
    (hacyclic : ∀ x ∈ cs, ¬ TransGen d.Extends x x) : cs.Nodup := by
  induction h with
  | top => simp
  | step hs hl ih =>
    have ih := ih fun x hx => hacyclic x (by simp [hx])
    refine List.nodup_cons.mpr ⟨fun hmem => ?_, ih⟩
    exact hacyclic _ (by simp) ((Lineage.step hs hl).reaches hmem)

/-- Without a cycle the way up ends: it cannot come to a class that it passed before. -/
theorem Climb.lineage {known way : List ClassId} (h : d.Climb known (c :: way))
    (hacyclic : ∀ x, ReflTransGen d.Extends c x → ¬ TransGen d.Extends x x)
    (hknown : ∀ b ∈ known, TransGen d.Extends b c) : d.Lineage (c :: way) := by
  induction way generalizing c known with
  | nil =>
    cases h with
    | top hnone => exact .top hnone
    | known hc => exact absurd (hknown c hc) (hacyclic c .refl)
  | cons s way ih =>
    cases h with
    | known hc => exact absurd (hknown c hc) (hacyclic c .refl)
    | step hs hclimb =>
      refine .step hs (ih hclimb (fun x hx => hacyclic x (.head hs hx)) fun b hb => ?_)
      rcases List.mem_cons.mp hb with rfl | hb
      · exact .single hs
      · exact (hknown b hb).tail hs

theorem lineage_ancestry (hacyclic : ∀ x, ReflTransGen d.Extends c x → ¬ TransGen d.Extends x x) :
    ∃ supers, d.ancestry c = c :: supers ∧ d.Lineage (c :: supers) ∧ (c :: supers).Nodup := by
  obtain ⟨way, hway, hclimb⟩ := d.climb_ancestry c
  have hl := hclimb.lineage hacyclic (by simp)
  refine ⟨way, hway, hl, hl.nodup fun x hx => hacyclic x ?_⟩
  exact reaches_of_mem_ancestry (hway ▸ hx)

theorem isSubclass_iff (hacyclic : ∀ x, ¬ TransGen d.Extends x x) :
    d.isSubclass c x = true ↔ ReflTransGen d.Extends c x := by
  rw [isSubclass, List.contains_iff_mem]
  refine ⟨reaches_of_mem_ancestry, fun h => ?_⟩
  obtain ⟨supers, hancestry, hl, -⟩ := lineage_ancestry (c := c) fun x _ => hacyclic x
  rw [hancestry]
  exact hl.mem_of_reaches h

theorem acyclic_of_insert {r r' : α → α → Prop} (hr : ∀ x y, r' x y → r x y ∨ x = a ∧ y = b)
    (hacyclic : ∀ x, ¬ TransGen r x x) (hback : ¬ ReflTransGen r b a) (x : α) :
    ¬ TransGen r' x x := by
  -- a path of the larger relation goes through the new pair, or else it is one of the smaller
  have hpath : ∀ y, TransGen r' x y →
      TransGen r x y ∨ ReflTransGen r x a ∧ ReflTransGen r b y := by
    intro y hy
    induction hy with
    | single h =>
      rcases hr _ _ h with h | ⟨rfl, rfl⟩
      · exact .inl (.single h)
      · exact .inr ⟨.refl, .refl⟩
    | tail _ h ih =>
      rcases hr _ _ h with h | ⟨rfl, rfl⟩
      · exact ih.imp (·.tail h) (And.imp_right (·.tail h))
      · exact .inr ⟨ih.elim (·.to_reflTransGen) And.left, .refl⟩
  intro hx
  rcases hpath x hx with hx | ⟨hxa, hbx⟩
  · exact hacyclic x hx
  · exact hback (hbx.trans hxa)

/-- A class may get a superclass that is not below it already: no cycle is closed. -/
theorem acyclic_set (hacyclic : ∀ x, ¬ TransGen d.Extends x x) (h : d.isSubclass s c = false)
    (name : String) (x : ClassId) :
    ¬ TransGen (Extends { d with classes := d.classes.setIfInBounds c ⟨name, some s⟩ }) x x := by
  refine acyclic_of_insert (a := c) (b := s) (fun y z hyz => ?_) hacyclic (fun hback => ?_) x
  · rw [Extends, superOf, Array.getElem?_setIfInBounds] at hyz
    split at hyz
    case isTrue hy =>
      split at hyz
      · exact .inr ⟨hy.symm, (Option.some.inj hyz).symm⟩
      · cases hyz
    case isFalse => exact .inl hyz
  · exact Bool.eq_false_iff.mp h ((isSubclass_iff hacyclic).mpr hback)

end

end Declarations

-- ---------------------------------------------------------------------------
-- Class tables
-- ---------------------------------------------------------------------------

namespace Image

def Class.toDecl (count : Nat) (c : Class) : ClassDecl := ⟨c.name, reference? count c.super⟩

def Class.unlinked (c : Class) : ClassDecl := ⟨c.name, none⟩

def Above (table : List Class) (i j : Nat) : Prop :=
  ∃ c, table[i]? = some c ∧ reference? table.length c.super = some j

/-- The classes of a table while their superclasses are set: those of `done` have theirs. -/
def linkedTo (count : Nat) (done rest : List Class) : Declarations :=
  { classes := (done.map (Class.toDecl count) ++ rest.map Class.unlinked).toArray }

theorem reference?_zero (count : Nat) : reference? count 0 = none := by
  simp [reference?]

theorem classNames_eq (table : List Class) (i : Nat) (h : ∀ c ∈ table, c.name ≠ "") :
    classNames i table = .ok (table.map Class.unlinked) := by
  induction table generalizing i with
  | nil => rfl
  | cons c table ih =>
    have hc : c.name.isEmpty = false := by simpa using h c (by simp)
    rw [classNames, hc, ih (i + 1) fun c hc => h c (by simp [hc])]
    rfl

/-- With the superclasses set up to a row, whatever is above a class is above it in the table. -/
theorem not_isSubclass_of_acyclic {table done rest : List Class} (ht : table = done ++ rest)
    (hacyclic : ∀ i, ¬ TransGen (Above table) i i) (h : Above table i s) :
    (linkedTo table.length done rest).isSubclass s i = false := by
  rw [Bool.eq_false_iff]
  intro hsub
  have hup := Declarations.reaches_of_mem_ancestry (List.contains_iff_mem.mp hsub)
  refine hacyclic i (.head' h (hup.lift id fun j k hjk => ?_))
  simp only [Declarations.Extends, Declarations.superOf, linkedTo, List.getElem?_toArray,
    List.getElem?_append, List.getElem?_map] at hjk
  split at hjk
  case isTrue hj =>
    have hlt : j < done.length := by simpa using hj
    simp only [List.getElem?_eq_getElem hlt, Option.map_some, Option.bind_some,
      Class.toDecl] at hjk
    refine ⟨_, ?_, hjk⟩
    rw [ht, id_eq, List.getElem?_append_left hlt, List.getElem?_eq_getElem hlt]
  case isFalse =>
    simp [Class.unlinked, Option.bind_eq_some_iff] at hjk

theorem linkedTo_nil (count : Nat) (table : List Class) :
    linkedTo count table [] = { classes := (table.map (Class.toDecl count)).toArray } := by
  simp [linkedTo]

theorem acyclic_linkedTo_start (count : Nat) (table : List Class) (c : ClassId) :
    ¬ TransGen (linkedTo count [] table).Extends c c := by
  intro hc
  obtain ⟨s, hs, -⟩ := TransGen.head'_iff.mp hc
  obtain ⟨k, hk, hsuper⟩ := Option.bind_eq_some_iff.mp hs
  simp only [linkedTo, List.map_nil, List.nil_append, List.getElem?_toArray] at hk
  obtain ⟨c, -, rfl⟩ := List.mem_map.mp (List.mem_of_getElem? hk)
  cases hsuper

theorem linkedTo_zero {c : Class} (h : c.super = 0) :
    linkedTo count done (c :: rest) = linkedTo count (done ++ [c]) rest := by
  simp [linkedTo, Class.toDecl, Class.unlinked, h, reference?_zero]

theorem linkedTo_set {c : Class} (h : reference? count c.super = some s) :
    ⟨(linkedTo count done (c :: rest)).classes.setIfInBounds done.length ⟨c.name, some s⟩, #[]⟩ =
      linkedTo count (done ++ [c]) rest := by
  simp [linkedTo, Class.toDecl, h]

/-- The superclasses from a row on. Those of the rows before it are set already, and while the table
has no cycle nothing that is set can close one. -/
theorem linkSupers_eq (table done rest : List Class) (ht : table = done ++ rest)
    (hrange : ∀ c ∈ rest, c.super ≠ 0 → ∃ s, reference? table.length c.super = some s)
    (hacyclic : ∀ i, ¬ TransGen (Above table) i i) :
    linkSupers (linkedTo table.length done rest) done.length rest =
      .ok (linkedTo table.length table []) := by
  induction rest generalizing done with
  | nil => simp [linkSupers, ht]
  | cons c rest ih =>
    have hnext := ih (done ++ [c]) (by simp [ht]) fun c hc => hrange c (by simp [hc])
    rw [List.length_append, List.length_singleton] at hnext
    by_cases h0 : c.super = 0
    · rw [linkSupers, if_pos h0, linkedTo_zero h0]
      exact hnext
    · obtain ⟨s, hs⟩ := hrange c (by simp) h0
      have hrow : Above table done.length s := ⟨c, by simp [ht], hs⟩
      have hsub := not_isSubclass_of_acyclic ht hacyclic hrow
      have hsize : (linkedTo table.length done (c :: rest)).classes.size = table.length := by
        simp [linkedTo, ht]
      rw [linkSupers, if_neg h0]
      simp only [hsize, hs, hsub, Bool.false_eq_true, ↓reduceIte]
      exact linkedTo_set hs ▸ hnext

theorem decodeClasses_eq (table : List Class) (hname : ∀ c ∈ table, c.name ≠ "")
    (hrange : ∀ c ∈ table, c.super ≠ 0 → ∃ s, reference? table.length c.super = some s)
    (hacyclic : ∀ i, ¬ TransGen (Above table) i i) :
    decodeClasses table = .ok { classes := (table.map (Class.toDecl table.length)).toArray } := by
  have hlink := linkSupers_eq table [] table rfl hrange hacyclic
  rw [linkedTo_nil] at hlink
  rw [decodeClasses, classNames_eq table 0 hname]
  exact hlink

theorem classNames_ok {table : List Class} {ks : List ClassDecl} (h : classNames i table = .ok ks) :
    ks = table.map Class.unlinked ∧ ∀ c ∈ table, c.name ≠ "" := by
  induction table generalizing i ks with
  | nil => simp_all [classNames]
  | cons c table ih =>
    rw [classNames] at h
    split at h
    · cases h
    · rename_i hname
      cases hrest : classNames (i + 1) table with
      | error reason => simp [hrest, Except.map] at h
      | ok rest =>
        obtain ⟨rfl, hnames⟩ := ih hrest
        simp only [hrest, Except.map, Except.ok.injEq] at h
        exact ⟨h.symm, List.forall_mem_cons.mpr ⟨by simpa using hname, hnames⟩⟩

theorem reference?_lt (h : reference? count i = some k) : k < count := by
  unfold reference? at h
  split at h
  · obtain rfl := Option.some.inj h
    omega
  · cases h

theorem linkSupers_ok {table : List Class} (done rest : List Class) (ht : table = done ++ rest)
    (hacyclic : ∀ c, ¬ TransGen (linkedTo table.length done rest).Extends c c)
    (h : linkSupers (linkedTo table.length done rest) done.length rest = .ok d) :
    d = linkedTo table.length table [] ∧ ∀ c, ¬ TransGen d.Extends c c := by
  induction rest generalizing done with
  | nil =>
    obtain rfl := Except.ok.inj h
    rw [ht, List.append_nil] at hacyclic ⊢
    exact ⟨rfl, hacyclic⟩
  | cons c rest ih =>
    have hnext := ih (done ++ [c]) (by simp [ht])
    rw [List.length_append, List.length_singleton] at hnext
    have hsize : (linkedTo table.length done (c :: rest)).classes.size = table.length := by
      simp [linkedTo, ht]
    rw [linkSupers] at h
    split at h
    case isTrue h0 =>
      rw [linkedTo_zero h0] at hacyclic h
      exact hnext hacyclic h
    case isFalse =>
      rw [hsize] at h
      split at h
      · cases h
      · rename_i s hs
        split at h
        · cases h
        · rename_i hsub
          replace h : linkSupers ⟨_, #[]⟩ _ _ = _ := h
          rw [linkedTo_set hs] at h
          refine hnext (fun x => ?_) h
          rw [← linkedTo_set hs]
          exact Declarations.acyclic_set hacyclic (by simpa using hsub) c.name x

end Image

end Linkage
