import Linkage.Checking
import Linkage.Proofs.Scopes

/-!
# Slots of checking contexts

A context answers for the declarations on the way to it from its root. They take the slots from zero
on in their order, and a name stands for its last declaration. A scope that is given a binding it
has already does not change; here that never happens, because every slot in a context is below the
next one.
-/

namespace Linkage.Context

-- ---------------------------------------------------------------------------
-- Declarations of variables
-- ---------------------------------------------------------------------------

inductive Bind where
  | bind (name : Symbol) (type : Ty)
  | bindAs (kind : BindingKind) (name : Symbol) (type : Ty)

namespace Bind

def kind : Bind → BindingKind
  | .bind .. => .ofLocal
  | .bindAs kind .. => kind

def name : Bind → Symbol
  | .bind name _ | .bindAs _ name _ => name

def type : Bind → Ty
  | .bind _ type | .bindAs _ _ type => type

def inSlot (b : Bind) (slot : Nat) : Binding := ⟨b.kind, b.type, slot⟩

structure IsLast (path : List Bind) (name : String) (i : Nat) (b : Bind) : Prop where
  declared : path[i]? = some b
  named : b.name.name = name
  later : ∀ j c, i < j → path[j]? = some c → c.name.name ≠ name

section
variable {path : List Bind} {name : String} {i : Nat} {b c : Bind}

theorem IsLast.lt (h : IsLast path name i b) : i < path.length :=
  (List.getElem?_eq_some_iff.mp h.declared).1

theorem isLast_append : IsLast (path ++ [c]) name i b ↔
    (c.name.name = name ∧ i = path.length ∧ b = c) ∨
      (c.name.name ≠ name ∧ IsLast path name i b) := by
  have hnew : (path ++ [c])[path.length]? = some c := List.getElem?_concat_length
  have hold : ∀ {j}, j < path.length → (path ++ [c])[j]? = path[j]? := List.getElem?_append_left
  constructor
  · intro h
    have hlt := h.lt
    rw [List.length_append, List.length_singleton] at hlt
    rcases Nat.lt_succ_iff_lt_or_eq.mp hlt with hi | rfl
    · refine .inr ⟨h.later _ c hi hnew, hold hi ▸ h.declared, h.named, fun j d hj hd => ?_⟩
      exact h.later j d hj ((hold (List.getElem?_eq_some_iff.mp hd).1).trans hd)
    · obtain rfl := Option.some.inj (hnew.symm.trans h.declared)
      exact .inl ⟨h.named, rfl, rfl⟩
  · rintro (⟨hname, rfl, rfl⟩ | ⟨hname, h⟩)
    · refine ⟨hnew, hname, fun j d hj hd => ?_⟩
      have hlt := (List.getElem?_eq_some_iff.mp hd).1
      rw [List.length_append, List.length_singleton] at hlt
      omega
    · refine ⟨(hold h.lt).trans h.declared, h.named, fun j d hj hd => ?_⟩
      have hlt := (List.getElem?_eq_some_iff.mp hd).1
      rw [List.length_append, List.length_singleton] at hlt
      rcases Nat.lt_succ_iff_lt_or_eq.mp hlt with hj' | rfl
      · exact h.later j d hj (hold hj' ▸ hd)
      · obtain rfl := Option.some.inj (hnew.symm.trans hd)
        exact hname

theorem exists_isLast (h : ∃ b ∈ path, b.name.name = name) : ∃ i b, IsLast path name i b := by
  induction path using List.reverseRecOn with
  | nil => simp at h
  | append_singleton path c ih =>
    by_cases hc : c.name.name = name
    · exact ⟨path.length, c, isLast_append.mpr (.inl ⟨hc, rfl, rfl⟩)⟩
    · obtain ⟨b, hb, hname⟩ := h
      rcases List.mem_append.mp hb with hb | hb
      · obtain ⟨i, d, hlast⟩ := ih ⟨b, hb, hname⟩
        exact ⟨i, d, isLast_append.mpr (.inr ⟨hc, hlast⟩)⟩
      · obtain rfl := List.mem_singleton.mp hb
        exact absurd hname hc

theorem IsLast.unique (h : IsLast path name i b) (h' : IsLast path name' i c) : name = name' := by
  obtain rfl := Option.some.inj (h.declared.symm.trans h'.declared)
  exact h.named.symm.trans h'.named

end

end Bind

def declare (c : Context) : Bind → Context
  | .bind name type => c.bind name type
  | .bindAs kind name type => c.bindAs kind name type

section
variable {c root : Context} {b : Bind}

theorem declare_eq (c : Context) (b : Bind) :
    c.declare b = { c with
      scope := c.scope.update Binding.equal c.next b.name (b.inSlot c.next)
      next := c.next + 1 } := by
  cases b with
  | bind name type => rfl
  | bindAs kind name type => rfl

theorem settle_inSlot {old : Option Binding} {next : Nat} (h : ∀ v ∈ old, v.slot < next) :
    Scope.settle Binding.equal old (b.inSlot next) = b.inSlot next := by
  cases old with
  | none => rfl
  | some v =>
    have hslot : (v.slot == (next : Int)) = false := beq_false_of_ne (h v rfl).ne
    have hne : v.equal (b.inSlot next) = false := by simp [Binding.equal, Bind.inSlot, hslot]
    rw [Scope.settle, hne, if_neg Bool.false_ne_true]

theorem lookup_declare (hfresh : ∀ v ∈ c.lookup b.name, v.slot < c.next) (x : Symbol) :
    (c.declare b).lookup x =
      if x.name = b.name.name then some (b.inSlot c.next) else c.lookup x := by
  rw [lookup] at hfresh
  rw [declare_eq, lookup, Scope.lookup_update, settle_inSlot hfresh, lookup]

-- ---------------------------------------------------------------------------
-- Any declarations
-- ---------------------------------------------------------------------------

theorem rest_foldl (path : List Bind) :
    (path.foldl declare root).next = root.next + path.length ∧
      (path.foldl declare root).returnType = root.returnType ∧
      (path.foldl declare root).assertions = root.assertions := by
  induction path using List.reverseRecOn with
  | nil => exact ⟨rfl, rfl, rfl⟩
  | append_singleton path b ih =>
    rw [List.foldl_append, List.foldl_cons, List.foldl_nil, declare_eq, List.length_append]
    exact ⟨congrArg (· + 1) ih.1, ih.2⟩

/-- A name is bound by its last declaration, in the slot of that. -/
theorem lookup_foldl (hscope : root.scope = .empty) (hnext : root.next = 0) (path : List Bind)
    (x : Symbol) (v : Binding) :
    (path.foldl declare root).lookup x = some v ↔
      ∃ i b, Bind.IsLast path x.name i b ∧ v = b.inSlot i := by
  induction path using List.reverseRecOn generalizing x v with
  | nil =>
    have hnone : ∀ i b, ¬ Bind.IsLast [] x.name i b := fun i b h => absurd h.lt (Nat.not_lt_zero i)
    simp [lookup, hscope, Scope.lookup, hnone]
  | append_singleton path b ih =>
    have hslots : (path.foldl declare root).next = path.length := by
      rw [(rest_foldl path).1, hnext, Nat.zero_add]
    have hfresh : ∀ v ∈ (path.foldl declare root).lookup b.name,
        v.slot < (path.foldl declare root).next := by
      intro v hv
      obtain ⟨i, d, hlast, rfl⟩ := (ih b.name v).mp hv
      rw [hslots]
      exact Int.ofNat_lt.mpr hlast.lt
    rw [List.foldl_append, List.foldl_cons, List.foldl_nil, lookup_declare hfresh, hslots]
    simp only [Bind.isLast_append]
    by_cases hx : x.name = b.name.name
    · simp [hx, eq_comm]
    · simp [hx, Ne.symm hx, ih]

theorem lookup_foldl_eq_none (hscope : root.scope = .empty) (hnext : root.next = 0)
    (path : List Bind) (x : Symbol) :
    (path.foldl declare root).lookup x = none ↔ ∀ b ∈ path, b.name.name ≠ x.name := by
  rw [Option.eq_none_iff_forall_ne_some]
  constructor
  · intro h b hb hname
    obtain ⟨i, d, hlast⟩ := Bind.exists_isLast ⟨b, hb, hname⟩
    exact h _ ((lookup_foldl hscope hnext path x _).mpr ⟨i, d, hlast, rfl⟩)
  · intro h v hv
    obtain ⟨i, d, hlast, -⟩ := (lookup_foldl hscope hnext path x v).mp hv
    exact h d (List.mem_of_getElem? hlast.declared) hlast.named

end

/-- The context holds the declarations on the way to it from its root. -/
structure Answers (root : Context) (path : List Bind) (c : Context) : Prop where
  next : c.next = path.length
  absent : ∀ x : Symbol, c.lookup x = none ↔ ∀ b ∈ path, b.name.name ≠ x.name
  bound : ∀ (x : Symbol) (v : Binding), c.lookup x = some v ↔
    ∃ i b, Bind.IsLast path x.name i b ∧ v = b.inSlot i
  untyped : ∀ x : Symbol, c.typeOf x = none ↔ c.lookup x = none
  unslotted : ∀ x : Symbol, c.slotOf x = -1 ↔ c.lookup x = none
  told : ∀ (x : Symbol) (v : Binding), c.lookup x = some v →
    c.typeOf x = some v.type ∧ c.slotOf x = v.slot
  distinct : ∀ (x y : Symbol) (v w : Binding), c.lookup x = some v → c.lookup y = some w →
    x.name ≠ y.name → v.slot ≠ w.slot
  returnType : c.returnType = root.returnType
  assertions : c.assertions = root.assertions

theorem answers_foldl {root : Context} (hscope : root.scope = .empty) (hnext : root.next = 0)
    (path : List Bind) : Answers root path (path.foldl declare root) := by
  have hbound := lookup_foldl hscope hnext path
  refine ⟨?_, lookup_foldl_eq_none hscope hnext path, hbound, fun x => ?_, fun x => ?_,
    fun x v hv => ?_, fun x y v w hv hw hne hslot => ?_, (rest_foldl path).2.1,
    (rest_foldl path).2.2⟩
  · rw [(rest_foldl path).1, hnext, Nat.zero_add]
  · rw [typeOf, Option.map_eq_none_iff]
  · -- no slot that is taken is negative
    rw [slotOf]
    cases hx : (path.foldl declare root).lookup x with
    | none => simp
    | some v =>
      obtain ⟨i, b, -, rfl⟩ := (hbound x v).mp hx
      have hslot : (b.inSlot i).slot = (i : Int) := rfl
      simp only [Option.map_some, Option.getD_some, hslot, reduceCtorEq]
  · rw [typeOf, slotOf, hv]
    exact ⟨rfl, rfl⟩
  · obtain ⟨i, b, hb, rfl⟩ := (hbound x v).mp hv
    obtain ⟨j, d, hd, rfl⟩ := (hbound y w).mp hw
    obtain rfl : i = j := Int.ofNat_inj.mp hslot
    exact hne (hb.unique hd)

/-- Every context that is derived from a root, from any context in between, answers for the
declarations on the way to it, and stays so whatever is declared later. -/
theorem contexts_answer_for_binds (returnType : Ty) (sink : Sink) (assertions : Bool)
    (steps : List (Nat × Bind)) :
    List.Forall₂ (Answers { returnType, sink, assertions }) (lineages steps)
        (derived declare { returnType, sink, assertions } steps) ∧
      ∀ more, derived declare { returnType, sink, assertions } steps <+:
        derived declare { returnType, sink, assertions } (steps ++ more) := by
  refine ⟨?_, derived_prefix _ _ steps⟩
  rw [derived_eq, List.forall₂_map_right_iff, List.forall₂_same]
  exact fun path _ => answers_foldl rfl rfl path

end Linkage.Context
