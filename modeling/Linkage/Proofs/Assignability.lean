import Linkage.Proofs.Hierarchy
import Linkage.Types.Assignable

/-!
# Assignability as an order

The rules by which a type is assignable to another one, apart from how they are tested. In a
hierarchy without cycles the test follows the rules, and the rules make a partial order of the
types: what widens, what is null, what is inherited and what is an array never lead back.
-/

namespace Linkage

open Relation (TransGen ReflTransGen)

-- ---------------------------------------------------------------------------
-- Superclasses
-- ---------------------------------------------------------------------------

namespace Declarations

section
variable {d : Declarations}

theorem acyclic_of_lt (h : ∀ c s, d.Extends c s → s < c) (x : ClassId) :
    ¬ TransGen d.Extends x x := by
  have hlt : ∀ y, TransGen d.Extends x y → y < x := by
    intro y hy
    induction hy with
    | single hs => exact h x _ hs
    | tail _ hs ih => exact (h _ _ hs).trans ih
  exact fun hx => (hlt x hx).false

theorem acyclic_of_all_lt (h : ∀ c < d.classes.size, (d.superOf c).all (· < c) = true)
    (x : ClassId) : ¬ TransGen d.Extends x x := by
  refine acyclic_of_lt (fun c s hs => ?_) x
  obtain ⟨k, hk, -⟩ := Option.bind_eq_some_iff.mp hs
  have hlt := h c (Array.getElem?_eq_some_iff.mp hk).1
  rw [show d.superOf c = some s from hs] at hlt
  simpa using hlt

end

end Declarations

-- ---------------------------------------------------------------------------
-- The rules
-- ---------------------------------------------------------------------------

theorem Ty.equal_iff {t u : Ty} : t.equal u = true ↔ t = u := by
  induction t generalizing u with
  | absent => cases u <;> simp [equal]
  | primitive p => cases u <;> simp [equal]
  | object c => cases u <;> simp [equal]
  | array s ih => cases u <;> simp [equal, ih]

namespace Declarations

/-- A value of the first type may stand where the second one is expected. -/
inductive Assigns (d : Declarations) : Ty → Ty → Prop
  | same (t : Ty) : Assigns d t t
  | widened : Assigns d (.primitive .int) (.primitive .float)
  | null {u} : u.isReference = true → Assigns d (.primitive .nil) u
  | inherited {c k} : ReflTransGen d.Extends c k → Assigns d (.object c) (.object k)
  /-- Arrays of references only: an array of `int` is none of `float`. -/
  | elements {s v} : s.isReference = true → Assigns d s v → Assigns d (.array s) (.array v)

section
variable {d : Declarations} {t u v : Ty} {c k : ClassId}

theorem assignable_self (d : Declarations) (t : Ty) : d.assignable t t = true := by
  unfold assignable
  rw [Ty.equal_iff.mpr rfl, Bool.true_or]

theorem assignable_of_assigns (hacyclic : ∀ x, ¬ TransGen d.Extends x x) (h : d.Assigns t u) :
    d.assignable t u = true := by
  induction h with
  | same t => exact d.assignable_self t
  | widened => rfl
  | null href => simp [assignable, href]
  | inherited hup => simp [assignable, (isSubclass_iff hacyclic).mpr hup]
  | elements href _ ih => simp [assignable, href, ih]

theorem assigns_of_assignable (hacyclic : ∀ x, ¬ TransGen d.Extends x x)
    (h : d.assignable t u = true) : d.Assigns t u := by
  fun_induction assignable d t u with
  | case1 t u ih =>
    rcases Bool.or_eq_true_iff.mp h with heq | h
    · exact Ty.equal_iff.mp heq ▸ .same t
    · split at h
      · exact .widened
      · exact .null h
      · exact .inherited ((isSubclass_iff hacyclic).mp h)
      · obtain ⟨href, h⟩ := (Bool.and_eq_true _ _).mp h
        exact .elements href (ih h)
      · cases h

theorem assignable_iff (hacyclic : ∀ x, ¬ TransGen d.Extends x x) :
    d.assignable t u = true ↔ d.Assigns t u :=
  ⟨assigns_of_assignable hacyclic, assignable_of_assigns hacyclic⟩

-- ---------------------------------------------------------------------------
-- The order
-- ---------------------------------------------------------------------------

theorem Assigns.isReference (h : d.Assigns t u) (ht : t.isReference = true) :
    u.isReference = true := by
  cases h with
  | same => exact ht
  | widened => cases ht
  | null href => exact href
  | inherited => rfl
  | elements => rfl

theorem Assigns.trans (h : d.Assigns t u) (h' : d.Assigns u v) : d.Assigns t v := by
  induction h generalizing v with
  | same => exact h'
  | widened =>
    cases h' with
    | same => exact .widened
  | null href => exact .null (h'.isReference href)
  | inherited hup =>
    cases h' with
    | same => exact .inherited hup
    | inherited hup' => exact .inherited (hup.trans hup')
  | elements href _ ih =>
    cases h' with
    | same => exact .elements href (ih (.same _))
    | elements _ h' => exact .elements href (ih h')

theorem Assigns.eq_nil (h : d.Assigns t (.primitive .nil)) : t = .primitive .nil := by
  cases h with
  | same => rfl
  | null => rfl

theorem Assigns.antisymm (hacyclic : ∀ x, ¬ TransGen d.Extends x x) (h : d.Assigns t u)
    (h' : d.Assigns u t) : t = u := by
  induction h with
  | same => rfl
  | widened => nomatch h'
  | null => exact h'.eq_nil.symm
  | inherited hup =>
    cases h' with
    | same => rfl
    | inherited hdown =>
      -- two ways that lead to each other would close a cycle
      rcases Relation.reflTransGen_iff_eq_or_transGen.mp hup with rfl | hup
      · rfl
      · exact absurd (hup.trans_left hdown) (hacyclic _)
  | elements _ _ ih =>
    cases h' with
    | same => rfl
    | elements _ h' => rw [ih h']

end

/-- In a hierarchy without cycles a type is assignable to another one by the rules alone. Equality
of types is an equivalence, and assignability is a partial order up to it: it is reflexive and
transitive, does not tell equal types apart, and leads back only to an equal type. -/
theorem assignable_partialOrder (d : Declarations) (hacyclic : ∀ c, ¬ TransGen d.Extends c c) :
    (∀ t u, d.assignable t u = true ↔ d.Assigns t u) ∧
      Equivalence (fun t u : Ty => t.equal u = true) ∧
      (∀ t, d.assignable t t = true) ∧
      (∀ t u v, d.assignable t u = true → d.assignable u v = true → d.assignable t v = true) ∧
      (∀ t t' u u', t.equal t' = true → u.equal u' = true →
        d.assignable t u = d.assignable t' u') ∧
      ∀ t u, d.assignable t u = true → d.assignable u t = true → t.equal u = true := by
  have hiff : ∀ t u, d.assignable t u = true ↔ d.Assigns t u := fun t u => assignable_iff hacyclic
  refine ⟨hiff, ?_, d.assignable_self, ?_, ?_, ?_⟩
  · simp only [Ty.equal_iff]
    exact eq_equivalence
  · intro t u v h h'
    rw [hiff] at h h' ⊢
    exact h.trans h'
  · intro t t' u u' ht hu
    rw [Ty.equal_iff.mp ht, Ty.equal_iff.mp hu]
  · intro t u h h'
    rw [hiff] at h h'
    exact Ty.equal_iff.mpr (h.antisymm hacyclic h')

def shapes : Declarations where
  classes := #[⟨"Shape", none⟩, ⟨"Rectangle", some 0⟩, ⟨"Square", some 1⟩]

/-- Rows of squares may stand for rows of shapes, and so the other way round they may not. -/
theorem assignable_partialOrder_shapes :
    (∀ c, ¬ TransGen shapes.Extends c c) ∧
      shapes.assignable (.array (.array (.object 2))) (.array (.array (.object 0))) = true ∧
      shapes.assignable (.array (.array (.object 0))) (.array (.array (.object 2))) = false := by
  have hacyclic : ∀ c, ¬ TransGen shapes.Extends c c := by
    refine acyclic_of_lt fun c s hs => ?_
    rcases c with _ | _ | _ | c
    · cases hs
    · obtain rfl := Option.some.inj hs
      decide
    · obtain rfl := Option.some.inj hs
      decide
    · simp [Extends, superOf, shapes] at hs
  obtain ⟨-, -, -, htrans, -, hantisymm⟩ := assignable_partialOrder shapes hacyclic
  have hup := htrans (.array (.array (.object 2))) (.array (.array (.object 1)))
    (.array (.array (.object 0))) (by decide) (by decide)
  refine ⟨hacyclic, hup, Bool.eq_false_iff.mpr fun hdown => ?_⟩
  exact absurd (hantisymm _ _ hup hdown) (by decide)

end Declarations

end Linkage
