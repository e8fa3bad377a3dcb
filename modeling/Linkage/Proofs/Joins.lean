import Linkage.Proofs.Assignability

/-!
# Least common types

Two types that are assignable to one and the same type have a least such type, their join. What is
found for two types is always their join, whichever of them comes first. It is found if one of them
is assignable to the other or if both are classes. Two arrays of references have a join as soon as
their elements have one, but it is not looked for.
-/

namespace Linkage.Declarations

open Relation (TransGen ReflTransGen)

/-- The least of the types to which both `t` and `u` are assignable. -/
structure IsJoin (d : Declarations) (t u l : Ty) : Prop where
  left : d.assignable t l = true
  right : d.assignable u l = true
  least : ∀ w, d.assignable t w = true → d.assignable u w = true → d.assignable l w = true

section
variable {d : Declarations} {t u w l : Ty} {c k m x : ClassId}

-- ---------------------------------------------------------------------------
-- Where two types meet
-- ---------------------------------------------------------------------------

theorem Assigns.of_object (h : d.Assigns (.object c) w) :
    ∃ k, w = .object k ∧ ReflTransGen d.Extends c k := by
  cases h with
  | same => exact ⟨c, rfl, .refl⟩
  | inherited hup => exact ⟨_, rfl, hup⟩

theorem Assigns.of_array {s : Ty} (h : d.Assigns (.array s) w) :
    ∃ v, w = .array v ∧ d.Assigns s v := by
  cases h with
  | same => exact ⟨s, rfl, .same s⟩
  | elements _ h => exact ⟨_, rfl, h⟩

theorem Assigns.isReference_left (h : d.Assigns t w) (hw : w.isReference = true) :
    t.isReference = true := by
  cases h with
  | same => exact hw
  | widened => cases hw
  | null => rfl
  | inherited => rfl
  | elements => rfl

theorem Assigns.absent_iff (h : d.Assigns t w) : t = .absent ↔ w = .absent := by
  cases h with
  | same => rfl
  | widened => simp
  | null href =>
    refine iff_of_false (by simp) ?_
    rintro rfl
    cases href
  | inherited => simp
  | elements => simp

/-- Types that meet anywhere are assignable one to the other, or are two classes that meet, or are
two arrays of references whose elements meet. -/
theorem Assigns.meet_cases (h : d.Assigns t w) (h' : d.Assigns u w) :
    d.Assigns t u ∨ d.Assigns u t ∨
      (∃ c k x, t = .object c ∧ u = .object k ∧
        ReflTransGen d.Extends c x ∧ ReflTransGen d.Extends k x) ∨
      ∃ s v x, t = .array s ∧ u = .array v ∧ s.isReference = true ∧ v.isReference = true ∧
        d.Assigns s x ∧ d.Assigns v x := by
  cases h with
  | same => exact .inr (.inl h')
  | widened =>
    cases h' with
    | same => exact .inl .widened
    | widened => exact .inl (.same _)
    | null href => cases href
  | null href => exact .inl (.null (h'.isReference_left href))
  | inherited hc =>
    cases h' with
    | same => exact .inl (.inherited hc)
    | null => exact .inr (.inl (.null rfl))
    | inherited hk => exact .inr (.inr (.inl ⟨_, _, _, rfl, rfl, hc, hk⟩))
  | elements hs h =>
    cases h' with
    | same => exact .inl (.elements hs h)
    | null => exact .inr (.inl (.null rfl))
    | elements hv h' => exact .inr (.inr (.inr ⟨_, _, _, rfl, rfl, hs, hv, h, h'⟩))

-- ---------------------------------------------------------------------------
-- Joins
-- ---------------------------------------------------------------------------

theorem isJoin_iff (hacyclic : ∀ x, ¬ TransGen d.Extends x x) :
    d.IsJoin t u l ↔
      d.Assigns t l ∧ d.Assigns u l ∧ ∀ w, d.Assigns t w → d.Assigns u w → d.Assigns l w := by
  simp only [← assignable_iff hacyclic]
  constructor
  · intro h
    exact ⟨h.left, h.right, h.least⟩
  · rintro ⟨hleft, hright, hleast⟩
    exact ⟨hleft, hright, hleast⟩

theorem IsJoin.symm (h : d.IsJoin t u l) : d.IsJoin u t l :=
  ⟨h.right, h.left, fun w hu ht => h.least w ht hu⟩

theorem IsJoin.unique (hacyclic : ∀ x, ¬ TransGen d.Extends x x) (h : d.IsJoin t u l)
    (h' : d.IsJoin t u w) : l = w := by
  have hlw := h.least w h'.left h'.right
  have hwl := h'.least l h.left h.right
  rw [assignable_iff hacyclic] at hlw hwl
  exact hlw.antisymm hacyclic hwl

theorem isJoin_of_assignable (h : d.assignable t u = true) : d.IsJoin t u u :=
  ⟨h, d.assignable_self u, fun _ _ hu => hu⟩

theorem Lineage.find?_reaches {p : ClassId → Bool} {supers : List ClassId}
    (h : d.Lineage (c :: supers)) (hfind : (c :: supers).find? p = some m)
    (hx : ReflTransGen d.Extends c x) (hp : p x = true) : ReflTransGen d.Extends m x := by
  induction supers generalizing c with
  | nil =>
    obtain rfl : c = m := List.mem_singleton.mp (List.mem_of_find?_eq_some hfind) |>.symm
    exact hx
  | cons s supers ih =>
    cases hc : p c with
    | true =>
      obtain rfl : c = m := by simpa [hc] using hfind
      exact hx
    | false =>
      cases h with
      | step hs hl =>
        rw [List.find?_cons, hc] at hfind
        rcases hx.cases_head with rfl | ⟨s', hs', hx⟩
        · simp [hp] at hc
        · obtain rfl := Option.some.inj (hs.symm.trans hs')
          exact ih hl hfind hx

theorem exists_find?_ancestry (hacyclic : ∀ x, ¬ TransGen d.Extends x x)
    (hc : ReflTransGen d.Extends c x) (hk : ReflTransGen d.Extends k x) :
    ∃ m, (d.ancestry c).find? (d.isSubclass k) = some m := by
  rw [← Option.isSome_iff_exists, List.find?_isSome]
  exact ⟨x, List.contains_iff_mem.mp ((isSubclass_iff hacyclic).mpr hc),
    (isSubclass_iff hacyclic).mpr hk⟩

theorem isJoin_object (hacyclic : ∀ x, ¬ TransGen d.Extends x x)
    (hfind : (d.ancestry c).find? (d.isSubclass k) = some m) :
    d.IsJoin (.object c) (.object k) (.object m) := by
  rw [isJoin_iff hacyclic]
  refine ⟨.inherited (reaches_of_mem_ancestry (List.mem_of_find?_eq_some hfind)),
    .inherited ((isSubclass_iff hacyclic).mp (List.find?_some hfind)), fun w hcw hkw => ?_⟩
  obtain ⟨x, rfl, hcx⟩ := hcw.of_object
  obtain ⟨y, hy, hkx⟩ := hkw.of_object
  obtain rfl := Ty.object.inj hy
  obtain ⟨supers, hancestry, hl, -⟩ := lineage_ancestry (c := c) fun x _ => hacyclic x
  exact .inherited
    (hl.find?_reaches (hancestry ▸ hfind) hcx ((isSubclass_iff hacyclic).mpr hkx))

theorem IsJoin.array (hacyclic : ∀ x, ¬ TransGen d.Extends x x) {s v : Ty} (h : d.IsJoin s v l)
    (hs : s.isReference = true) (hv : v.isReference = true) :
    d.IsJoin (.array s) (.array v) (.array l) := by
  rw [isJoin_iff hacyclic] at h ⊢
  obtain ⟨hleft, hright, hleast⟩ := h
  refine ⟨.elements hs hleft, .elements hv hright, fun w hsw hvw => ?_⟩
  obtain ⟨x, rfl, hsx⟩ := hsw.of_array
  obtain ⟨y, hy, hvx⟩ := hvw.of_array
  obtain rfl := Ty.array.inj hy
  exact .elements (hleft.isReference hs) (hleast x hsx hvx)

/-- Types that meet have a join: two arrays that of their elements, at any depth. -/
theorem exists_isJoin {t u w : Ty} (hacyclic : ∀ x, ¬ TransGen d.Extends x x)
    (h : d.Assigns t w) (h' : d.Assigns u w) : ∃ l, d.IsJoin t u l := by
  rcases h.meet_cases h' with htu | hut | ⟨c, k, x, rfl, rfl, hc, hk⟩ |
    ⟨s, v, x, ht, rfl, hs, hv, hsx, hvx⟩
  · exact ⟨u, isJoin_of_assignable ((assignable_iff hacyclic).mpr htu)⟩
  · exact ⟨t, (isJoin_of_assignable ((assignable_iff hacyclic).mpr hut)).symm⟩
  · obtain ⟨m, hm⟩ := exists_find?_ancestry hacyclic hc hk
    exact ⟨.object m, isJoin_object hacyclic hm⟩
  · obtain ⟨l, hl⟩ := exists_isJoin hacyclic hsx hvx
    exact ⟨.array l, ht ▸ hl.array hacyclic hs hv⟩
termination_by t
decreasing_by simp [ht]

-- ---------------------------------------------------------------------------
-- What is found
-- ---------------------------------------------------------------------------

theorem least_cases (d : Declarations) (t u : Ty) :
    (d.assignable t u = true ∧ d.least t u = u) ∨ (d.assignable u t = true ∧ d.least t u = t) ∨
      d.assignable t u = false ∧ d.assignable u t = false ∧
        ((∃ c k, t = .object c ∧ u = .object k ∧
            d.least t u = ((d.ancestry c).find? (d.isSubclass k)).elim .absent .object) ∨
          (∀ c k, t = .object c → u ≠ .object k) ∧ d.least t u = .absent) := by
  cases htu : d.assignable t u with
  | true => exact .inl ⟨rfl, by simp [least, htu]⟩
  | false =>
    cases hut : d.assignable u t with
    | true => exact .inr (.inl ⟨rfl, by simp [least, htu, hut]⟩)
    | false =>
      refine .inr (.inr ⟨rfl, rfl, ?_⟩)
      simp only [least, htu, hut, Bool.false_eq_true, ↓reduceIte]
      split
      · rename_i c k
        refine .inl ⟨c, k, rfl, rfl, ?_⟩
        cases (d.ancestry c).find? (d.isSubclass k) <;> rfl
      · rename_i hobjects
        exact .inr ⟨hobjects, rfl⟩

theorem isJoin_least (hacyclic : ∀ x, ¬ TransGen d.Extends x x) (h : d.least t u ≠ .absent) :
    d.IsJoin t u (d.least t u) := by
  rcases d.least_cases t u with ⟨htu, heq⟩ | ⟨hut, heq⟩ |
    ⟨-, -, ⟨c, k, rfl, rfl, heq⟩ | ⟨-, heq⟩⟩
  · rw [heq]
    exact isJoin_of_assignable htu
  · rw [heq]
    exact (isJoin_of_assignable hut).symm
  · cases hfind : (d.ancestry c).find? (d.isSubclass k) with
    | none => exact absurd (heq.trans (by rw [hfind]; rfl)) h
    | some m =>
      rw [heq, hfind]
      exact isJoin_object hacyclic hfind
  · exact absurd heq h

/-- Of types that meet, only arrays are not looked through. -/
theorem least_eq_absent_iff (hacyclic : ∀ x, ¬ TransGen d.Extends x x) (ht : t ≠ .absent)
    (h : d.Assigns t w) (h' : d.Assigns u w) :
    d.least t u = .absent ↔ (∃ s v, t = .array s ∧ u = .array v) ∧
      d.assignable t u = false ∧ d.assignable u t = false := by
  rcases d.least_cases t u with ⟨htu, heq⟩ | ⟨hut, heq⟩ |
    ⟨htu, hut, ⟨c, k, rfl, rfl, heq⟩ | ⟨hobjects, heq⟩⟩
  · have hu : u ≠ .absent := mt ((assignable_iff hacyclic).mp htu).absent_iff.mpr ht
    simp [heq, hu, htu]
  · simp [heq, ht, hut]
  · obtain ⟨x, rfl, hc⟩ := h.of_object
    obtain ⟨y, hy, hk⟩ := h'.of_object
    obtain rfl := Ty.object.inj hy
    obtain ⟨m, hm⟩ := exists_find?_ancestry hacyclic hc hk
    simp [heq, hm]
  · refine ⟨fun _ => ⟨?_, htu, hut⟩, fun _ => heq⟩
    rcases h.meet_cases h' with hin | hin | ⟨c, k, -, hc, hk, -⟩ | ⟨s, v, -, hs, hv, -⟩
    · rw [(assignable_iff hacyclic).mpr hin] at htu
      cases htu
    · rw [(assignable_iff hacyclic).mpr hin] at hut
      cases hut
    · exact absurd hk (hobjects c k hc)
    · exact ⟨s, v, hs, hv⟩

theorem least_ne_absent_symm (hacyclic : ∀ x, ¬ TransGen d.Extends x x)
    (h : d.least t u ≠ .absent) : d.least u t ≠ .absent := by
  have hjoin := isJoin_least hacyclic h
  have htl := (assignable_iff hacyclic).mp hjoin.left
  have hul := (assignable_iff hacyclic).mp hjoin.right
  have ht : t ≠ .absent := mt htl.absent_iff.mp h
  have hu : u ≠ .absent := mt hul.absent_iff.mp h
  rw [ne_eq, least_eq_absent_iff hacyclic ht htl hul] at h
  rw [ne_eq, least_eq_absent_iff hacyclic hu hul htl]
  rintro ⟨⟨v, s, hv, hs⟩, hut, htu⟩
  exact h ⟨⟨s, v, hs, hv⟩, htu, hut⟩

/-- In a hierarchy without cycles, a type that is found for two types is the least one to which both
are assignable, and the same one is found for them in the other order. -/
theorem least_isLeast (hacyclic : ∀ c, ¬ TransGen d.Extends c c) (hfound : d.least t u = l)
    (hl : l ≠ .absent) : d.IsJoin t u l ∧ (d.least u t).equal (d.least t u) = true := by
  subst hfound
  have hjoin := isJoin_least hacyclic hl
  have hjoin' := isJoin_least hacyclic (least_ne_absent_symm hacyclic hl)
  exact ⟨hjoin, Ty.equal_iff.mpr (hjoin'.symm.unique hacyclic hjoin)⟩

def figures : Declarations where
  classes := #[⟨"Object", none⟩, ⟨"Shape", some 0⟩, ⟨"Circle", some 1⟩, ⟨"Square", some 1⟩]

theorem acyclic_figures : ∀ c, ¬ TransGen figures.Extends c c :=
  acyclic_of_all_lt (by decide)

theorem least_isLeast_figures :
    (∀ c, ¬ TransGen figures.Extends c c) ∧
      figures.least (.object 2) (.object 3) = .object 1 ∧
      figures.IsJoin (.object 2) (.object 3) (.object 1) ∧
      (figures.least (.object 3) (.object 2)).equal
        (figures.least (.object 2) (.object 3)) = true :=
  ⟨acyclic_figures, by decide, least_isLeast acyclic_figures (by decide) (by decide)⟩

/-- In a hierarchy without cycles, types that are assignable to one and the same type have a least
such type. Nothing is found for them exactly if they are two arrays, neither of them assignable to
the other. -/
theorem least_misses_iff (hacyclic : ∀ c, ¬ TransGen d.Extends c c) (ht : t ≠ .absent)
    (htw : d.assignable t w = true) (huw : d.assignable u w = true) :
    (∃ l, d.IsJoin t u l) ∧
      (d.least t u = .absent ↔ (∃ s v, t = .array s ∧ u = .array v) ∧
        d.assignable t u = false ∧ d.assignable u t = false) := by
  rw [assignable_iff hacyclic] at htw huw
  exact ⟨exists_isJoin hacyclic htw huw, least_eq_absent_iff hacyclic ht htw huw⟩

/-- Rows of circles and rows of squares are rows of shapes, but no type is found for them. -/
theorem least_misses_iff_figures :
    (∀ c, ¬ TransGen figures.Extends c c) ∧
      figures.assignable (.array (.object 2)) (.array (.object 1)) = true ∧
      figures.assignable (.array (.object 3)) (.array (.object 1)) = true ∧
      (∃ l, figures.IsJoin (.array (.object 2)) (.array (.object 3)) l) ∧
      figures.least (.array (.object 2)) (.array (.object 3)) = .absent := by
  have hcircles : figures.assignable (.array (.object 2)) (.array (.object 1)) = true := by decide
  have hsquares : figures.assignable (.array (.object 3)) (.array (.object 1)) = true := by decide
  obtain ⟨hjoin, hiff⟩ := least_misses_iff acyclic_figures (by decide) hcircles hsquares
  exact ⟨acyclic_figures, hcircles, hsquares, hjoin,
    hiff.mpr ⟨⟨_, _, rfl, rfl⟩, by decide, by decide⟩⟩

/-- A common type does not make sure that one is found. -/
theorem least_misses_rows :
    ¬ ∀ d : Declarations, (∀ c, ¬ TransGen d.Extends c c) → ∀ t u : Ty, t ≠ .absent → u ≠ .absent →
      (∃ w, d.assignable t w = true ∧ d.assignable u w = true) → d.least t u ≠ .absent := by
  intro h
  exact h figures acyclic_figures (.array (.object 2)) (.array (.object 3)) (by decide) (by decide)
    ⟨.array (.object 1), by decide, by decide⟩ (by decide)

end

end Linkage.Declarations
