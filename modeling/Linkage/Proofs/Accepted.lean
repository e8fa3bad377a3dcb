import Linkage.Proofs.Hierarchy
import Linkage.Proofs.Rows
import Mathlib.Data.List.Nodup
import Mathlib.Tactic.MkIffOfInductiveProp

/-!
# Images that are accepted

What has to hold of an image to be read, said of its tables alone. Reading goes through the tables
one after another; each lemma says of one reader what it accepts, and an image is accepted exactly
if all of its tables are.
-/

namespace Linkage.Image

-- ---------------------------------------------------------------------------
-- Well-formed images
-- ---------------------------------------------------------------------------

/-- The text denotes a type over `count` classes: a primitive by its name, a class by `@` and its
number, an array by `[` before its elements. -/
inductive Denotes (count : Nat) : List Char → Ty → Prop
  | primitive {p} : p ∈ Primitive.named → Denotes count p.name.toList (.primitive p)
  | object {text n} : Numeral.decimal? text = some n → 0 ≤ n → n < count →
      Denotes count ('@' :: text) (.object n.toNat)
  | array {text t} : Denotes count text t → Denotes count ('[' :: text) (.array t)

def IsType (count : Nat) (s : String) : Prop := ∃ t, Denotes count s.toList t

def RowAt (table : List α) (i : Int64) (row : α) : Prop :=
  ∃ k : Nat, i.toInt = k ∧ table[k]? = some row

/-- The row of a table that a reference, an index from one, stands for. -/
def RefersTo (table : List α) (i : Int64) (row : α) : Prop :=
  ∃ k : Nat, i.toInt = k + 1 ∧ table[k]? = some row

def Member.IsCode (m : Member) : Prop := m.kind = methodKind ∨ m.kind = ctorKind

/-- Parameters are looked at in every row, the type only in those that need one. -/
structure Member.WellFormed (classes : List Class) (m : Member) : Prop where
  owner : ∃ c, RowAt classes m.owner c
  kind : m.kind = fieldKind ∨ m.IsCode
  params : ∀ s ∈ m.params.getD [], IsType classes.length s
  type : m.kind ≠ ctorKind → IsType classes.length m.type

/-- The type has to be in order even if the operation has no use for it. -/
@[mk_iff]
structure Instr.WellFormed (classes : List Class) (members : List Member) (i : Instr) : Prop where
  opcode : Op.nop ≤ i.op ∧ i.op ≤ Op.call
  type : i.type = "" ∨ IsType classes.length i.type
  const : i.op = Op.const → i.type ∈ ["int", "float", "boolean", "String", "nil"]
  arith : i.op = Op.arith → i.sub ≤ 4
  cond : i.op = Op.compare ∨ i.op = Op.guard → i.sub ≤ 7
  new : i.op = Op.new → ∃ c, Denotes classes.length i.type.toList (.object c)
  field : i.op = Op.getField ∨ i.op = Op.putField →
    ∃ m, RefersTo members i.member m ∧ m.kind = fieldKind
  callee : i.op = Op.call → ∃ m, RefersTo members i.member m ∧ m.IsCode
  targets : i.op = Op.call → ∀ t ∈ i.targets.getD [], ∃ m, RefersTo members t m ∧ m.IsCode
  resolved : i.op = Op.call → i.resolved = false → i.targets.getD [] = []

structure Block.WellFormed (classes : List Class) (members : List Member) (blocks : List Block)
    (b : Block) : Prop where
  nonempty : b.code.getD [] ≠ []
  code : ∀ i ∈ b.code.getD [], i.WellFormed classes members
  succs : ∀ s ∈ b.succs.getD [], ∃ row, RowAt blocks s row

structure Body.WellFormed (members : List Member) (blocks : List Block) (b : Body) : Prop where
  member : ∃ m, RowAt members b.member m ∧ m.IsCode
  root : ∃ row, RowAt blocks b.root row

/-- Every table is in order and refers only to what the others hold. -/
structure WellFormed (img : Image) : Prop where
  version : img.version = 1
  runId : img.runId = "" ∨ ∃ id, RunId.parse img.runId = .ok id
  classes : ∃ d, decodeClasses (img.classes.getD []) = .ok d
  members : ∀ m ∈ img.members.getD [], m.WellFormed (img.classes.getD [])
  blocks : ∀ b ∈ img.blocks.getD [],
    b.WellFormed (img.classes.getD []) (img.members.getD []) (img.blocks.getD [])
  entry : ∃ m, RowAt (img.members.getD []) img.entry m ∧ m.IsCode
  bodies : ∀ b ∈ img.bodies.getD [], b.WellFormed (img.members.getD []) (img.blocks.getD [])
  bodiesNodup : ((img.bodies.getD []).map (·.member)).Nodup
  reachable : ∀ i ∈ img.reachable.getD [], ∃ m, RowAt (img.members.getD []) i m

-- ---------------------------------------------------------------------------
-- Readers that succeed
-- ---------------------------------------------------------------------------

theorem bind_ok {x : Except ε α} {f : α → Except ε β} :
    x >>= f = .ok b ↔ ∃ a, x = .ok a ∧ f a = .ok b := by
  cases x <;> simp [bind, Except.bind]

theorem exists_bind_ok {x : Except ε α} {f : α → Except ε β} :
    (∃ b, x >>= f = .ok b) ↔ ∃ a, x = .ok a ∧ ∃ b, f a = .ok b := by
  cases x <;> simp [bind, Except.bind]

theorem pure_ok {a b : α} : (pure a : Except ε α) = .ok b ↔ b = a := by
  simp [pure, Except.pure, eq_comm]

theorem map_ok {x : Except ε α} {f : α → β} : f <$> x = .ok b ↔ ∃ a, x = .ok a ∧ b = f a := by
  cases x <;> simp [Functor.map, Except.map, eq_comm]

@[simp] theorem within_ok {place : Place} {x : Decode α} :
    Decode.within place x = .ok a ↔ x = .ok a := by
  cases x <;> simp [Decode.within]

theorem exists_mapM {f : α → Except ε β} {xs : List α} :
    (∃ ys, xs.mapM f = .ok ys) ↔ ∀ x ∈ xs, ∃ y, f x = .ok y := by
  induction xs with
  | nil => simp [pure, Except.pure]
  | cons x xs ih =>
    rw [List.forall_mem_cons, ← ih, List.mapM_cons]
    simp only [bind_ok, pure_ok]
    constructor
    · rintro ⟨_, y, hy, ys, hys, -⟩
      exact ⟨⟨y, hy⟩, ys, hys⟩
    · rintro ⟨⟨y, hy⟩, ys, hys⟩
      exact ⟨y :: ys, y, hy, ys, hys, rfl⟩

theorem forall₂_of_mapM {f : α → Except ε β} {xs : List α} {ys : List β} (h : xs.mapM f = .ok ys) :
    List.Forall₂ (fun x y => f x = .ok y) xs ys := by
  induction xs generalizing ys with
  | nil =>
    obtain rfl := pure_ok.mp h
    exact .nil
  | cons x xs ih =>
    rw [List.mapM_cons] at h
    obtain ⟨y, hy, h⟩ := bind_ok.mp h
    obtain ⟨rest, hrest, h⟩ := bind_ok.mp h
    obtain rfl := pure_ok.mp h
    exact .cons hy (ih hrest)

-- ---------------------------------------------------------------------------
-- Indices
-- ---------------------------------------------------------------------------

section
variable {table : List α} {P : α → Prop} {Q : Nat → Prop} {size k : Nat} {i : Int64}

theorem index?_eq_some : index? size i = some k ↔ i.toInt = k ∧ k < size := by
  unfold index?
  split
  · rw [Option.some.injEq]
    omega
  · simp only [reduceCtorEq, false_iff]
    omega

theorem reference?_eq_some : reference? size i = some k ↔ i.toInt = k + 1 ∧ k < size := by
  unfold reference?
  split
  · rw [Option.some.injEq]
    omega
  · simp only [reduceCtorEq, false_iff]
    omega

theorem rowAt_iff (h : ∀ (k : Nat) row, table[k]? = some row → (Q k ↔ P row)) :
    (∃ row, RowAt table i row ∧ P row) ↔ ∃ k, index? table.length i = some k ∧ Q k := by
  simp only [index?_eq_some, RowAt]
  constructor
  · rintro ⟨row, ⟨k, hk, hrow⟩, hP⟩
    exact ⟨k, ⟨hk, (List.getElem?_eq_some_iff.mp hrow).1⟩, (h k row hrow).mpr hP⟩
  · rintro ⟨k, ⟨hk, hlt⟩, hQ⟩
    have hrow := List.getElem?_eq_getElem hlt
    exact ⟨_, ⟨k, hk, hrow⟩, (h k _ hrow).mp hQ⟩

theorem refersTo_iff (h : ∀ (k : Nat) row, table[k]? = some row → (Q k ↔ P row)) :
    (∃ row, RefersTo table i row ∧ P row) ↔ ∃ k, reference? table.length i = some k ∧ Q k := by
  simp only [reference?_eq_some, RefersTo]
  constructor
  · rintro ⟨row, ⟨k, hk, hrow⟩, hP⟩
    exact ⟨k, ⟨hk, (List.getElem?_eq_some_iff.mp hrow).1⟩, (h k row hrow).mpr hP⟩
  · rintro ⟨k, ⟨hk, hlt⟩, hQ⟩
    have hrow := List.getElem?_eq_getElem hlt
    exact ⟨_, ⟨k, hk, hrow⟩, (h k _ hrow).mp hQ⟩

theorem exists_rowAt : (∃ row, RowAt table i row) ↔ ∃ k, index? table.length i = some k := by
  have hall : ∀ (k : Nat) row, table[k]? = some row → (True ↔ True) := fun _ _ _ => Iff.rfl
  simpa using rowAt_iff hall

end

-- ---------------------------------------------------------------------------
-- Types
-- ---------------------------------------------------------------------------

section
variable {count : Nat} {text : List Char} {s : String} {t : Ty} {p : Primitive}

/-- No name of a primitive type is empty or starts like a class or an array. -/
theorem named_first (hp : p ∈ Primitive.named) :
    p.name.toList ≠ [] ∧ ∀ rest, p.name.toList ≠ '[' :: rest ∧ p.name.toList ≠ '@' :: rest := by
  revert p
  simp [Primitive.named, Primitive.name]

theorem ofName?_eq_some : Primitive.ofName? s = some p ↔ p ∈ Primitive.named ∧ p.name = s := by
  constructor
  · intro h
    exact ⟨List.mem_of_find?_eq_some h, by simpa using List.find?_some h⟩
  · rintro ⟨hp, rfl⟩
    revert p
    decide

theorem not_denotes_nil : ¬ Denotes count [] t := by
  generalize htext : ([] : List Char) = text
  rintro (hp | _ | _)
  · exact (named_first hp).1 htext.symm
  · cases htext
  · cases htext

theorem denotes_array :
    Denotes count ('[' :: text) t ↔ ∃ e, Denotes count text e ∧ t = .array e := by
  constructor
  · generalize htext : '[' :: text = whole
    rintro (hp | ⟨_, _, _⟩ | h)
    · exact absurd htext.symm ((named_first hp).2 text).1
    · simp at htext
    · obtain rfl := (List.cons.inj htext).2
      exact ⟨_, h, rfl⟩
  · rintro ⟨e, h, rfl⟩
    exact .array h

theorem denotes_object : Denotes count ('@' :: text) t ↔
    ∃ n, Numeral.decimal? text = some n ∧ (0 ≤ n ∧ n < count) ∧ t = .object n.toNat := by
  constructor
  · generalize htext : '@' :: text = whole
    rintro (hp | ⟨hn, hlow, hhigh⟩ | h)
    · exact absurd htext.symm ((named_first hp).2 text).2
    · obtain rfl := (List.cons.inj htext).2
      exact ⟨_, hn, ⟨hlow, hhigh⟩, rfl⟩
    · simp at htext
  · rintro ⟨n, hn, ⟨hlow, hhigh⟩, rfl⟩
    exact .object hn hlow hhigh

theorem denotes_primitive (harray : ∀ rest, text ≠ '[' :: rest)
    (hobject : ∀ rest, text ≠ '@' :: rest) :
    Denotes count text t ↔
      ∃ p, Primitive.ofName? (String.ofList text) = some p ∧ t = .primitive p := by
  constructor
  · rintro (hp | _ | _)
    · exact ⟨_, ofName?_eq_some.mpr ⟨hp, by simp⟩, rfl⟩
    · exact absurd rfl (hobject _)
    · exact absurd rfl (harray _)
  · rintro ⟨p, hp, rfl⟩
    obtain ⟨hmem, hname⟩ := ofName?_eq_some.mp hp
    have htext : text = p.name.toList := by rw [hname, String.toList_ofList]
    exact htext ▸ .primitive hmem

theorem Denotes.ne_absent (h : Denotes count text t) : t ≠ .absent := by
  cases h <;> simp

theorem typeOfChars_ok :
    typeOfChars count text = .ok t ↔ (text = [] ∧ t = .absent) ∨ Denotes count text t := by
  fun_induction typeOfChars count text generalizing t with
  | case1 => simp [not_denotes_nil, eq_comm]
  | case2 rest reason hrest ih =>
    simp only [reduceCtorEq, false_and, false_or, false_iff, denotes_array]
    rintro ⟨e, he, rfl⟩
    simpa [hrest] using ih.mpr (.inr he)
  | case3 rest hrest ih =>
    simp only [reduceCtorEq, false_and, false_or, false_iff, denotes_array]
    rintro ⟨e, he, rfl⟩
    have hread := ih.mpr (.inr he)
    rw [hrest] at hread
    exact he.ne_absent (Except.ok.inj hread).symm
  | case4 rest e hne hrest ih =>
    simp only [reduceCtorEq, false_and, false_or, denotes_array, Except.ok.injEq]
    have he := (ih.mp hrest).resolve_left fun h => hne h.2
    constructor
    · rintro rfl
      exact ⟨e, he, rfl⟩
    · rintro ⟨e', he', rfl⟩
      have hread := ih.mpr (.inr he')
      rw [hrest] at hread
      rw [Except.ok.inj hread]
  | case5 rest n hn hrange => simp [denotes_object, hn, hrange, eq_comm]
  | case6 rest n hn hrange => simp [denotes_object, hn, hrange, eq_comm]
  | case7 rest hn => simp [denotes_object, hn]
  | case8 name hnil harray hobject p hp =>
    have hne : name ≠ [] := hnil
    simp [denotes_primitive harray hobject, hp, eq_comm, hne]
  | case9 name hnil harray hobject hp =>
    have hne : name ≠ [] := hnil
    simp [denotes_primitive harray hobject, hp, hne]

theorem typeOf_ok :
    typeOf count s = .ok t ↔ (s = "" ∧ t = .absent) ∨ Denotes count s.toList t := by
  rw [typeOf, typeOfChars_ok, String.toList_eq_nil_iff]

theorem typeOf_primitive :
    typeOf count s = .ok (.primitive p) ↔ p ∈ Primitive.named ∧ s = p.name := by
  rw [typeOf_ok]
  constructor
  · rintro (⟨-, h⟩ | h)
    · cases h
    · generalize htext : s.toList = text at h
      cases h with
      | primitive hp => exact ⟨hp, String.toList_inj.mp htext⟩
  · rintro ⟨hp, rfl⟩
    exact .inr (.primitive hp)

theorem typeOf_object {c : ClassId} :
    typeOf count s = .ok (.object c) ↔ Denotes count s.toList (.object c) := by
  simp [typeOf_ok]

theorem exists_typeOf : (∃ t, typeOf count s = .ok t) ↔ s = "" ∨ IsType count s := by
  simp [typeOf_ok, exists_or, IsType]

theorem isType_iff : IsType count s ↔ ∃ t, typeOf count s = .ok t ∧ t ≠ .absent := by
  simp only [typeOf_ok]
  constructor
  · rintro ⟨t, ht⟩
    exact ⟨t, .inr ht, ht.ne_absent⟩
  · rintro ⟨t, ⟨-, rfl⟩ | ht, hne⟩
    · exact absurd rfl hne
    · exact ⟨t, ht⟩

theorem exists_paramsOf {i : Nat} {texts : List String} :
    (∃ ts, paramsOf count i texts = .ok ts) ↔ ∀ s ∈ texts, IsType count s := by
  induction texts generalizing i with
  | nil => simp [paramsOf]
  | cons s texts ih =>
    rw [List.forall_mem_cons, ← ih (i := i + 1), isType_iff, paramsOf]
    simp only [bind_ok]
    constructor
    · rintro ⟨ts, t, ht, h⟩
      cases t with
      | absent => cases h
      | _ =>
        obtain ⟨rest, hrest, -⟩ := bind_ok.mp h
        exact ⟨⟨_, ht, by simp⟩, rest, hrest⟩
    · rintro ⟨⟨t, ht, hne⟩, rest, hrest⟩
      refine ⟨t :: rest, t, ht, ?_⟩
      cases t with
      | absent => exact absurd rfl hne
      | _ => exact bind_ok.mpr ⟨rest, hrest, rfl⟩

theorem exists_requiredType {reason : Malformed} :
    (∃ t, requiredType count reason s = .ok t) ↔ IsType count s := by
  rw [isType_iff, requiredType]
  cases typeOf count s with
  | error e => simp
  | ok t => cases t <;> simp

end

-- ---------------------------------------------------------------------------
-- Classes and members
-- ---------------------------------------------------------------------------

section
variable {d d' : Declarations} {classes : List Class} {members : List Member} {m : Member}
  {k : Linkage.Member} {count i : Nat}

theorem decodeMember_ok :
    decodeMember count i m = .ok k ↔ ∃ owner params, index? count m.owner = some owner ∧
      paramsOf count 0 (m.params.getD []) = .ok params ∧
      ((m.kind = fieldKind ∧ ∃ t, requiredType count (.fieldType i m.type) m.type = .ok t ∧
          k = .field owner m.name t) ∨
        (m.kind = methodKind ∧ ∃ t, requiredType count (.resultType i m.type) m.type = .ok t ∧
          k = .method owner m.name params t) ∨
        (m.kind = ctorKind ∧ k = .ctor owner params)) := by
  unfold decodeMember
  cases howner : index? count m.owner with
  | none => simp
  | some owner =>
    simp only [bind_ok, within_ok, Option.some.injEq, exists_and_left, exists_eq_left']
    refine exists_congr fun params => and_congr_right fun _ => ?_
    have hkinds : fieldKind ≠ methodKind ∧ fieldKind ≠ ctorKind ∧ methodKind ≠ ctorKind := by
      decide
    by_cases hfield : m.kind = fieldKind
    · simp [hfield, hkinds, map_ok]
    by_cases hmethod : m.kind = methodKind
    · simp [hmethod, hkinds.1.symm, hkinds.2.2, map_ok]
    by_cases hctor : m.kind = ctorKind
    · simp [hctor, hkinds.2.1.symm, hkinds.2.2.symm, pure_ok]
    · simp [hfield, hmethod, hctor]

theorem exists_decodeMember :
    (∃ k, decodeMember classes.length i m = .ok k) ↔ m.WellFormed classes := by
  simp only [decodeMember_ok]
  constructor
  · rintro ⟨k, owner, params, howner, hparams, h⟩
    refine ⟨exists_rowAt.mpr ⟨owner, howner⟩, ?_, exists_paramsOf.mp ⟨params, hparams⟩, ?_⟩
    · exact h.imp And.left (Or.imp And.left And.left)
    · intro hkind
      rcases h with ⟨-, t, ht, -⟩ | ⟨-, t, ht, -⟩ | ⟨hctor, -⟩
      · exact exists_requiredType.mp ⟨t, ht⟩
      · exact exists_requiredType.mp ⟨t, ht⟩
      · exact absurd hctor hkind
  · intro h
    obtain ⟨owner, howner⟩ := exists_rowAt.mp h.owner
    obtain ⟨params, hparams⟩ := exists_paramsOf.mpr h.params
    have htype : ∀ reason, m.kind ≠ ctorKind →
        ∃ t, requiredType classes.length reason m.type = .ok t := fun reason hkind =>
      exists_requiredType.mpr (h.type hkind)
    rcases h.kind with hkind | hkind | hkind
    · obtain ⟨t, ht⟩ := htype (.fieldType i m.type) (by rw [hkind]; decide)
      exact ⟨_, owner, params, howner, hparams, .inl ⟨hkind, t, ht, rfl⟩⟩
    · obtain ⟨t, ht⟩ := htype (.resultType i m.type) (by rw [hkind]; decide)
      exact ⟨_, owner, params, howner, hparams, .inr (.inl ⟨hkind, t, ht, rfl⟩)⟩
    · exact ⟨_, owner, params, howner, hparams, .inr (.inr ⟨hkind, rfl⟩)⟩

theorem decodeMember_hasCode (h : decodeMember count i m = .ok k) :
    k.hasCode = true ↔ m.IsCode := by
  obtain ⟨owner, params, -, -, h⟩ := decodeMember_ok.mp h
  rcases h with ⟨hkind, t, -, rfl⟩ | ⟨hkind, t, -, rfl⟩ | ⟨hkind, rfl⟩
  · simp +decide [Member.IsCode, hkind, Linkage.Member.hasCode, Linkage.Member.isField]
  · simp +decide [Member.IsCode, hkind, Linkage.Member.hasCode, Linkage.Member.isField]
  · simp +decide [Member.IsCode, hkind, Linkage.Member.hasCode, Linkage.Member.isField]

theorem decodeMembers_ok {rows : List Member} (h : decodeMembers d i rows = .ok d') :
    ∃ ks, d' = { d with members := d.members ++ ks.toArray } ∧
      List.Forall₂ (fun m k => ∃ i, decodeMember d.classes.size i m = .ok k) rows ks := by
  induction rows generalizing d i with
  | nil => exact ⟨[], by rw [Except.ok.inj h]; simp, .nil⟩
  | cons m rows ih =>
    obtain ⟨k, hk, hrest⟩ := bind_ok.mp h
    obtain ⟨ks, rfl, hks⟩ := ih hrest
    exact ⟨k :: ks, by simp [Declarations.declare], .cons ⟨i, hk⟩ hks⟩

theorem exists_decodeMembers (hd : d.classes.size = classes.length) {rows : List Member} :
    (∃ d', decodeMembers d i rows = .ok d') ↔ ∀ m ∈ rows, m.WellFormed classes := by
  induction rows generalizing d i with
  | nil => simp [decodeMembers]
  | cons m rows ih =>
    rw [List.forall_mem_cons, ← exists_decodeMember (i := i), decodeMembers, hd]
    simp only [bind_ok]
    constructor
    · rintro ⟨d', k, hk, hrest⟩
      exact ⟨⟨k, hk⟩, (ih (d := d.declare k) hd).mp ⟨d', hrest⟩⟩
    · rintro ⟨⟨k, hk⟩, hrows⟩
      obtain ⟨d', hd'⟩ := (ih (d := d.declare k) hd (i := i + 1)).mpr hrows
      exact ⟨d', k, hk, hd'⟩

theorem decodeClasses_ok (h : decodeClasses classes = .ok d) :
    d = { classes := (classes.map (Class.toDecl classes.length)).toArray } ∧
      (∀ c ∈ classes, c.name ≠ "") ∧ ∀ c, ¬ Relation.TransGen d.Extends c c := by
  obtain ⟨ks, hks, hlink⟩ := bind_ok.mp h
  obtain ⟨rfl, hnames⟩ := classNames_ok hks
  obtain ⟨rfl, hacyclic⟩ := linkSupers_ok [] classes rfl (acyclic_linkedTo_start _ _) hlink
  exact ⟨linkedTo_nil .., hnames, hacyclic⟩

theorem decodeClasses_size (h : decodeClasses classes = .ok d) :
    d.classes.size = classes.length ∧ d.members = #[] := by
  obtain ⟨rfl, -⟩ := decodeClasses_ok h
  simp

/-- The declarations have what the tables list, with the same members as fields and as code. -/
structure Declares (d : Declarations) (classes : List Class) (members : List Member) : Prop where
  classCount : d.classes.size = classes.length
  memberCount : d.members.size = members.length
  code : ∀ (k : Nat) row, members[k]? = some row → (d.isCode k = true ↔ row.IsCode)
  field : ∀ (k : Nat) row, members[k]? = some row → (d.isCode k = false ↔ row.kind = fieldKind)

theorem declares_of_decode (hclasses : decodeClasses classes = .ok d)
    (hmembers : decodeMembers d 0 members = .ok d') : Declares d' classes members := by
  obtain ⟨hsize, hnone⟩ := decodeClasses_size hclasses
  have hwf := (exists_decodeMembers hsize).mp ⟨d', hmembers⟩
  obtain ⟨ks, rfl, hks⟩ := decodeMembers_ok hmembers
  have hcode : ∀ (k : Nat) row, members[k]? = some row →
      (Declarations.isCode { d with members := d.members ++ ks.toArray } k = true ↔
        row.IsCode) := by
    intro k row hrow
    obtain ⟨hlt, rfl⟩ := List.getElem?_eq_some_iff.mp hrow
    have hlt' : k < ks.length := hks.length_eq ▸ hlt
    obtain ⟨i, hi⟩ := hks.get hlt hlt'
    have hkind := decodeMember_hasCode hi
    simp only [List.get_eq_getElem] at hkind
    rw [← hkind]
    simp [Declarations.isCode, hnone, List.getElem?_eq_getElem hlt']
  refine ⟨hsize, by simp [hnone, hks.length_eq], hcode, fun k row hrow => ?_⟩
  rw [← Bool.not_eq_true, hcode k row hrow]
  rcases (hwf row (List.mem_of_getElem? hrow)).kind with hkind | hkind | hkind
  · simp +decide [Member.IsCode, hkind]
  · simp +decide [Member.IsCode, hkind]
  · simp +decide [Member.IsCode, hkind]

end

-- ---------------------------------------------------------------------------
-- Instructions
-- ---------------------------------------------------------------------------

section
variable {d : Declarations} {classes : List Class} {members : List Member} {n : Int64} {i : Instr}

theorem exists_codeMember (hd : Declares d classes members) :
    (∃ m, codeMember d n = .ok m) ↔ ∃ row, RowAt members n row ∧ row.IsCode := by
  rw [rowAt_iff hd.code, codeMember, hd.memberCount]
  cases index? members.length n with
  | none => simp
  | some k => cases h : d.isCode k <;> simp [h]

theorem exists_callReference (hd : Declares d classes members) :
    (∃ m, callReference d n = .ok m) ↔ ∃ row, RefersTo members n row ∧ row.IsCode := by
  rw [refersTo_iff hd.code, callReference, hd.memberCount]
  cases reference? members.length n with
  | none => simp
  | some k => cases h : d.isCode k <;> simp [h]

theorem exists_fieldReference (hd : Declares d classes members) :
    (∃ m, fieldReference d n = .ok m) ↔ ∃ row, RefersTo members n row ∧ row.kind = fieldKind := by
  rw [refersTo_iff hd.field, fieldReference, hd.memberCount]
  cases reference? members.length n with
  | none => simp
  | some k => cases h : d.isCode k <;> simp [h]

theorem exists_callOf (hd : Declares d classes members) :
    (∃ c, callOf d i = .ok c) ↔ (∃ m, RefersTo members i.member m ∧ m.IsCode) ∧
      (∀ t ∈ i.targets.getD [], ∃ m, RefersTo members t m ∧ m.IsCode) ∧
      (i.resolved = false → i.targets.getD [] = []) := by
  simp only [← exists_callReference hd]
  rw [← exists_mapM (f := callReference d), callOf]
  simp only [bind_ok]
  constructor
  · rintro ⟨c, callee, hcallee, h⟩
    refine ⟨⟨callee, hcallee⟩, ?_⟩
    cases hres : i.resolved with
    | true =>
      simp only [hres, ↓reduceIte, bind_ok] at h
      obtain ⟨targets, htargets, -⟩ := h
      exact ⟨⟨targets, htargets⟩, by simp⟩
    | false =>
      by_cases hnone : i.targets.getD [] = []
      · simp [hnone, pure, Except.pure]
      · simp [hres, hnone] at h
  · rintro ⟨⟨callee, hcallee⟩, ⟨targets, htargets⟩, hnone⟩
    cases hres : i.resolved with
    | true => exact ⟨_, callee, hcallee, bind_ok.mpr ⟨targets, htargets, rfl⟩⟩
    | false => exact ⟨_, callee, hcallee, by simp only [hnone hres]; rfl⟩

theorem exists_constantOf {count : Nat} {t : Ty} (ht : typeOf count i.type = .ok t) :
    (∃ v, constantOf i t = .ok v) ↔ i.type ∈ ["int", "float", "boolean", "String", "nil"] := by
  have hname : ∀ p ∈ Primitive.named, i.type = p.name ↔ t = .primitive p := by
    intro p hp
    have htype : typeOf count i.type = .ok (.primitive p) ↔ _ := typeOf_primitive
    simpa [ht, hp] using htype.symm
  have hnames : i.type ∈ ["int", "float", "boolean", "String", "nil"] ↔
      t ∈ [.primitive .int, .primitive .float, .primitive .boolean, .primitive .string,
        .primitive .nil] := by
    simp only [List.mem_cons, List.not_mem_nil, or_false]
    rw [← hname .int (by decide), ← hname .float (by decide), ← hname .boolean (by decide),
      ← hname .string (by decide), ← hname .nil (by decide)]
    rfl
  rw [hnames]
  unfold constantOf
  split <;> simp_all

theorem exists_arithOp : (∃ op, arithOp i = .ok op) ↔ i.sub ≤ 4 := by
  rw [UInt8.le_iff_toNat_le]
  unfold arithOp
  split <;> simp_all [ArithOp.names] <;> omega

theorem exists_condOf : (∃ c, condOf i = .ok c) ↔ i.sub ≤ 7 := by
  rw [UInt8.le_iff_toNat_le]
  unfold condOf
  split <;> simp_all [Cond.names] <;> omega

theorem op_cases (op : UInt8) : (op < Op.nop ∨ Op.call < op) ∨ op = Op.nop ∨ op = Op.const ∨
    op = Op.load ∨ op = Op.store ∨ op = Op.arith ∨ op = Op.neg ∨ op = Op.not ∨ op = Op.compare ∨
    op = Op.dup ∨ op = Op.pop ∨ op = Op.new ∨ op = Op.newArray ∨ op = Op.arrayLoad ∨
    op = Op.arrayStore ∨ op = Op.getField ∨ op = Op.putField ∨ op = Op.ret ∨ op = Op.guard ∨
    op = Op.call := by
  simp only [UInt8.lt_iff_toNat_lt, ← UInt8.toNat_inj]
  simp [Op.nop, Op.const, Op.load, Op.store, Op.arith, Op.neg, Op.not, Op.compare, Op.dup, Op.pop,
    Op.new, Op.newArray, Op.arrayLoad, Op.arrayStore, Op.getField, Op.putField, Op.ret, Op.guard,
    Op.call]
  omega

theorem decodeInstr_opcode {t : Ty} (ht : typeOf d.classes.size i.type = .ok t)
    (h : i.op < Op.nop ∨ Op.call < i.op) (calls : Array Call) :
    decodeInstr d calls i = .error (.opcode i.op) := by
  have hop : ∀ op, Op.nop ≤ op → op ≤ Op.call → i.op ≠ op := by
    rintro op hlow hhigh rfl
    exact h.elim (UInt8.not_lt.mpr hlow) (UInt8.not_lt.mpr hhigh)
  rw [decodeInstr, ht, ok_bind]
  iterate 19 rw [if_neg (hop _ (by decide) (by decide))]
  rfl

theorem exists_decodeInstr (hd : Declares d classes members) (calls : Array Call) :
    (∃ r, decodeInstr d calls i = .ok r) ↔ i.WellFormed classes members := by
  rw [Instr.wellFormed_iff, ← exists_typeOf, ← hd.classCount]
  cases ht : typeOf d.classes.size i.type with
  | error reason => simp [decodeInstr, ht, bind, Except.bind]
  | ok t =>
    rcases op_cases i.op with
      h | h | h | h | h | h | h | h | h | h | h | h | h | h | h | h | h | h | h | h
    · have hno : ¬ (Op.nop ≤ i.op ∧ i.op ≤ Op.call) := fun hin =>
        h.elim (UInt8.not_lt.mpr hin.1) (UInt8.not_lt.mpr hin.2)
      simp [decodeInstr_opcode ht h, hno]
    -- with the operation known, one of the conditions is left, or none for those without operands
    all_goals
      rw [decodeInstr, ht, ok_bind]
      simp +decide only [h, ↓reduceIte, exists_bind_ok, pure_ok, false_imp_iff, true_imp_iff,
        and_true, true_and, Except.ok.injEq, exists_eq', exists_eq]
    · exact exists_constantOf ht
    · exact exists_arithOp
    · exact exists_condOf
    · simp only [← typeOf_object, ht, Except.ok.injEq]
      cases t <;> simp
    · exact exists_fieldReference hd
    · exact exists_fieldReference hd
    · exact exists_condOf
    · exact exists_callOf hd

-- ---------------------------------------------------------------------------
-- Blocks
-- ---------------------------------------------------------------------------

theorem exists_decodeCode (hd : Declares d classes members) (b j : Nat) (calls : Array Call)
    {code : List Instr} :
    (∃ r, decodeCode d b j calls code = .ok r) ↔ ∀ i ∈ code, i.WellFormed classes members := by
  induction code generalizing j calls with
  | nil => simp [decodeCode]
  | cons i code ih =>
    rw [List.forall_mem_cons, ← exists_decodeInstr hd calls, decodeCode]
    simp only [bind_ok, within_ok, pure_ok]
    constructor
    · rintro ⟨_, ⟨instruction, calls'⟩, hi, rest, hrest, -⟩
      exact ⟨⟨_, hi⟩, (ih (j + 1) calls').mp ⟨rest, hrest⟩⟩
    · rintro ⟨⟨⟨instruction, calls'⟩, hi⟩, hcode⟩
      obtain ⟨rest, hrest⟩ := (ih (j + 1) calls').mpr hcode
      exact ⟨_, ⟨instruction, calls'⟩, hi, rest, hrest, rfl⟩

theorem createBlocks_none (hd : Declares d classes members) {g : Graph} {j : Nat}
    {rows : List Block} :
    (createBlocks d g j rows).2 = none ↔
      ∀ b ∈ rows, b.code.getD [] ≠ [] ∧ ∀ i ∈ b.code.getD [], i.WellFormed classes members := by
  induction rows generalizing g j with
  | nil => simp [createBlocks]
  | cons b rows ih =>
    rw [List.forall_mem_cons, ← exists_decodeCode hd j 0 g.calls, createBlocks]
    split
    case h_1 hnil => simp [hnil]
    case h_2 hne =>
      have hne : b.code.getD [] ≠ [] := hne
      cases hcode : decodeCode d j 0 g.calls (b.code.getD []) with
      | error reason => simp
      | ok r => simp [ih, hne]

theorem createBlocks_size {g g' : Graph} {j : Nat} {rows : List Block}
    (h : createBlocks d g j rows = (g', none)) : g'.blocks.size = g.blocks.size + rows.length := by
  induction rows generalizing g j with
  | nil =>
    obtain rfl := (Prod.mk.inj h).1
    simp
  | cons b rows ih =>
    rw [createBlocks] at h
    split at h
    · simp at h
    · split at h
      · simp at h
      · have hsize := ih h
        simp only [Array.size_push] at hsize
        rw [hsize, List.length_cons]
        omega

end

section
variable {g g' : Graph} {count j : Nat} {rows : List Block}

theorem exists_successors {succs : List Int64} :
    (∃ r, successors count j succs = .ok r) ↔ ∀ s ∈ succs, ∃ k, index? count s = some k := by
  induction succs with
  | nil => simp [successors]
  | cons s succs ih =>
    rw [List.forall_mem_cons, ← ih, successors]
    cases index? count s with
    | none => simp
    | some k => cases successors count j succs <;> simp [Except.map]

theorem linkBlocks_cons (g : Graph) (j : Nat) (b : Block) (rows : List Block) :
    ∃ next : List (Option BlockRef) → Graph, (∀ succs, (next succs).blocks.size = g.blocks.size) ∧
      linkBlocks g j (b :: rows) = successors g.blocks.size j (b.succs.getD []) >>=
        fun succs => linkBlocks (next succs) (j + 1) rows := by
  rw [linkBlocks]
  cases g.blocks[j]? with
  | none => exact ⟨fun _ => g, fun _ => rfl, rfl⟩
  | some block =>
    exact ⟨fun succs => g.setBlock j { block with succs }, by simp [Graph.setBlock], rfl⟩

theorem exists_linkBlocks :
    (∃ g', linkBlocks g j rows = .ok g') ↔
      ∀ b ∈ rows, ∀ s ∈ b.succs.getD [], ∃ k, index? g.blocks.size s = some k := by
  induction rows generalizing g j with
  | nil => simp [linkBlocks]
  | cons b rows ih =>
    obtain ⟨next, hnext, hlink⟩ := linkBlocks_cons g j b rows
    rw [List.forall_mem_cons, ← exists_successors (j := j), hlink]
    simp only [bind_ok]
    constructor
    · rintro ⟨g', succs, hsuccs, hrest⟩
      exact ⟨⟨succs, hsuccs⟩, hnext succs ▸ ih.mp ⟨g', hrest⟩⟩
    · rintro ⟨⟨succs, hsuccs⟩, hrest⟩
      obtain ⟨g', hg'⟩ := (ih (g := next succs) (j := j + 1)).mpr (hnext succs ▸ hrest)
      exact ⟨g', succs, hsuccs, hg'⟩

theorem linkBlocks_size (h : linkBlocks g j rows = .ok g') :
    g'.blocks.size = g.blocks.size := by
  induction rows generalizing g j with
  | nil => rw [Except.ok.inj h]
  | cons b rows ih =>
    obtain ⟨next, hnext, hlink⟩ := linkBlocks_cons g j b rows
    rw [hlink] at h
    obtain ⟨succs, -, hrest⟩ := bind_ok.mp h
    rw [ih hrest, hnext]

end

-- ---------------------------------------------------------------------------
-- Bodies
-- ---------------------------------------------------------------------------

section
variable {d : Declarations} {classes : List Class} {members : List Member} {blocks : List Block}
  {code r : Registry} {bodies : List Body} {count j : Nat}

theorem codeMember_index {m : MemberId} (h : codeMember d n = .ok m) : n.toInt = m := by
  unfold codeMember at h
  split at h
  · cases h
  · rename_i k hk
    split at h
    · cases h
      exact (index?_eq_some.mp hk).1
    · cases h

theorem find_concat_eq_none {m k : MemberId} {root : Option BlockRef} :
    Registry.find (code ++ [(m, root)]) k = none ↔ code.find k = none ∧ k ≠ m := by
  rw [Registry.find, List.lookup_append, Option.or_eq_none_iff]
  by_cases hk : k = m
  · simp [hk]
  · simp [Registry.find, List.lookup_cons, beq_false_of_ne hk, hk]

theorem decodeBodies_cons {b : Body} :
    decodeBodies d count code j (b :: bodies) = .ok r ↔ ∃ m root, codeMember d b.member = .ok m ∧
      index? count b.root = some root ∧ code.find m = none ∧
      decodeBodies d count (code ++ [(m, some root)]) (j + 1) bodies = .ok r := by
  rw [decodeBodies]
  simp only [bind_ok, within_ok, exists_and_left]
  refine exists_congr fun m => and_congr_right fun _ => ?_
  cases index? count b.root with
  | none => simp
  | some root => cases code.find m <;> simp

/-- No body is for a member that has one already, in the registry or before it in the list. -/
theorem exists_decodeBodies (hd : Declares d classes members) (code : Registry) (j : Nat) :
    (∃ r, decodeBodies d blocks.length code j bodies = .ok r) ↔
      (∀ b ∈ bodies, b.WellFormed members blocks) ∧ (bodies.map (·.member)).Nodup ∧
        ∀ b ∈ bodies, ∀ m : MemberId, b.member.toInt = m → code.find m = none := by
  induction bodies generalizing code j with
  | nil => simp [decodeBodies]
  | cons b bodies ih =>
    simp only [decodeBodies_cons]
    constructor
    · rintro ⟨r, m, root, hm, hroot, hfree, hrest⟩
      obtain ⟨hbodies, hnodup, hnone⟩ := (ih _ _).mp ⟨r, hrest⟩
      have hindex := codeMember_index hm
      refine ⟨?_, ?_, ?_⟩
      · refine List.forall_mem_cons.mpr ⟨⟨?_, exists_rowAt.mpr ⟨root, hroot⟩⟩, hbodies⟩
        exact (exists_codeMember hd).mp ⟨m, hm⟩
      · refine List.nodup_cons.mpr ⟨fun hmem => ?_, hnodup⟩
        obtain ⟨b', hb', heq⟩ := List.mem_map.mp hmem
        exact (find_concat_eq_none.mp (hnone b' hb' m (heq ▸ hindex))).2 rfl
      · refine List.forall_mem_cons.mpr ⟨fun k hk => ?_, fun b' hb' k hk => ?_⟩
        · obtain rfl : m = k := by exact_mod_cast hindex.symm.trans hk
          exact hfree
        · exact (find_concat_eq_none.mp (hnone b' hb' k hk)).1
    · rintro ⟨hbodies, hnodup, hnone⟩
      obtain ⟨⟨hmember, hroot⟩, hbodies⟩ := List.forall_mem_cons.mp hbodies
      obtain ⟨hnew, hnodup⟩ := List.nodup_cons.mp hnodup
      obtain ⟨hfree, hnone⟩ := List.forall_mem_cons.mp hnone
      obtain ⟨m, hm⟩ := (exists_codeMember hd).mpr hmember
      obtain ⟨root, hroot⟩ := exists_rowAt.mp hroot
      have hindex := codeMember_index hm
      have hlater : ∀ b' ∈ bodies, ∀ k : MemberId, b'.member.toInt = k →
          Registry.find (code ++ [(m, some root)]) k = none := by
        intro b' hb' k hk
        refine find_concat_eq_none.mpr ⟨hnone b' hb' k hk, ?_⟩
        rintro rfl
        exact hnew (List.mem_map.mpr ⟨b', hb', Int64.toInt_inj.mp (hk.trans hindex.symm)⟩)
      obtain ⟨r, hr⟩ := (ih _ (j + 1)).mpr ⟨hbodies, hnodup, hlater⟩
      exact ⟨r, m, root, hm, hroot, hfree m hindex, hr⟩

theorem exists_decodeReachable {indices : List Int64} :
    (∃ r, decodeReachable members.length indices = .ok r) ↔
      ∀ i ∈ indices, ∃ m, RowAt members i m := by
  induction indices with
  | nil => simp [decodeReachable]
  | cons i indices ih =>
    rw [List.forall_mem_cons, ← ih, exists_rowAt, decodeReachable]
    cases index? members.length i with
    | none => simp
    | some k => cases decodeReachable members.length indices <;> simp [Except.map]

end

-- ---------------------------------------------------------------------------
-- The whole image
-- ---------------------------------------------------------------------------

section
variable {img : Image} {id : RunId} {d : Declarations} {g : Graph} {u : LinkUnit} {issued : Nat}

theorem exists_decodeRunId {s : String} :
    (∃ id, decodeRunId s = .ok id) ↔ s = "" ∨ ∃ id, RunId.parse s = .ok id := by
  unfold decodeRunId
  by_cases hs : s = ""
  · simp [hs]
  · cases RunId.parse s <;> simp [hs]

theorem decodeTables_ok :
    decodeTables img = .ok (id, d) ↔ img.version = 1 ∧ decodeRunId img.runId = .ok id ∧
      ∃ d₀, decodeClasses (img.classes.getD []) = .ok d₀ ∧
        decodeMembers d₀ 0 (img.members.getD []) = .ok d := by
  unfold decodeTables
  by_cases hversion : img.version = 1
  · simp [hversion, currentVersion, bind_ok, map_ok]
  · simp [hversion, currentVersion, bind_ok]

theorem decodeRest_ok :
    decodeRest img id d g = .ok u ↔ ∃ g' entry code reachable,
      linkBlocks g 0 (img.blocks.getD []) = .ok g' ∧ codeMember d img.entry = .ok entry ∧
      decodeBodies d g'.blocks.size [] 0 (img.bodies.getD []) = .ok code ∧
      decodeReachable d.members.size (img.reachable.getD []) = .ok reachable ∧
      u = ⟨id, img.linked, d, g', entry, code, reachable⟩ := by
  unfold decodeRest
  simp only [bind_ok, within_ok, pure_ok, exists_and_left]

theorem decode_ok :
    (img.decode issued).1 = .ok u ↔ ∃ id d g, decodeTables img = .ok (id, d) ∧
      createBlocks d { issued } 0 (img.blocks.getD []) = (g, none) ∧
      decodeRest img id d g = .ok u := by
  unfold decode
  cases htables : decodeTables img with
  | error reason => simp
  | ok r =>
    obtain ⟨id, d⟩ := r
    cases hblocks : createBlocks d { issued } 0 (img.blocks.getD []) with
    | mk g o => cases o <;> simp [hblocks]

theorem wellFormed_of_decode (h : (img.decode issued).1 = .ok u) : img.WellFormed := by
  obtain ⟨id, d, g, htables, hcreate, hrest⟩ := decode_ok.mp h
  obtain ⟨hversion, hid, d₀, hclasses, hmembers⟩ := decodeTables_ok.mp htables
  obtain ⟨g', entry, code, reachable, hlink, hentry, hbodies, hreachable, -⟩ :=
    decodeRest_ok.mp hrest
  have hd := declares_of_decode hclasses hmembers
  have hsize : g'.blocks.size = (img.blocks.getD []).length := by
    rw [linkBlocks_size hlink, createBlocks_size hcreate]
    simp
  have hcode := (createBlocks_none hd).mp (congrArg Prod.snd hcreate)
  have hsuccs := exists_linkBlocks.mp ⟨g', hlink⟩
  rw [← linkBlocks_size hlink, hsize] at hsuccs
  rw [hsize] at hbodies
  rw [hd.memberCount] at hreachable
  obtain ⟨hwf, hnodup, -⟩ := (exists_decodeBodies hd [] 0).mp ⟨code, hbodies⟩
  refine ⟨hversion, exists_decodeRunId.mp ⟨id, hid⟩, ⟨d₀, hclasses⟩, ?_, fun b hb => ?_,
    (exists_codeMember hd).mp ⟨entry, hentry⟩, hwf, hnodup,
    exists_decodeReachable.mp ⟨reachable, hreachable⟩⟩
  · exact (exists_decodeMembers (decodeClasses_size hclasses).1).mp ⟨d, hmembers⟩
  · exact ⟨(hcode b hb).1, (hcode b hb).2, fun s hs => exists_rowAt.mpr (hsuccs b hb s hs)⟩

theorem WellFormed.exists_decode (h : img.WellFormed) (issued : Nat) :
    ∃ u, (img.decode issued).1 = .ok u := by
  obtain ⟨id, hid⟩ := exists_decodeRunId.mpr h.runId
  obtain ⟨d₀, hclasses⟩ := h.classes
  have hcount := (decodeClasses_size hclasses).1
  obtain ⟨d, hmembers⟩ := (exists_decodeMembers hcount (i := 0)).mpr h.members
  have hd := declares_of_decode hclasses hmembers
  obtain ⟨g, hcreate⟩ : ∃ g, createBlocks d { issued } 0 (img.blocks.getD []) = (g, none) :=
    ⟨_, Prod.ext rfl ((createBlocks_none hd).mpr fun b hb =>
      ⟨(h.blocks b hb).nonempty, (h.blocks b hb).code⟩)⟩
  have hsize : g.blocks.size = (img.blocks.getD []).length := by
    rw [createBlocks_size hcreate]
    simp
  obtain ⟨g', hlink⟩ := (exists_linkBlocks (g := g) (j := 0)).mpr fun b hb s hs =>
    hsize ▸ exists_rowAt.mp ((h.blocks b hb).succs s hs)
  obtain ⟨entry, hentry⟩ := (exists_codeMember hd).mpr h.entry
  obtain ⟨code, hbodies⟩ :=
    (exists_decodeBodies hd [] 0).mpr ⟨h.bodies, h.bodiesNodup, fun _ _ _ _ => rfl⟩
  obtain ⟨reachable, hreachable⟩ := exists_decodeReachable.mpr h.reachable
  rw [← hsize, ← linkBlocks_size hlink] at hbodies
  rw [← hd.memberCount] at hreachable
  exact ⟨_, decode_ok.mpr ⟨id, d, g,
    decodeTables_ok.mpr ⟨h.version, hid, d₀, hclasses, hmembers⟩, hcreate,
    decodeRest_ok.mpr ⟨g', entry, code, reachable, hlink, hentry, hbodies, hreachable, rfl⟩⟩⟩

end

/-- Reading accepts exactly the well-formed images. Every other image is refused for a reason, and
so are all bytes that it can be read from. -/
theorem decode_accepts_iff (img : Image) (issued : Nat) :
    ((∃ u, (img.decode issued).1 = .ok u) ↔ img.WellFormed) ∧
      (¬ img.WellFormed → ∃ reason, (img.decode issued).1 = .error reason) ∧
      ∀ bytes, unmarshal bytes = some img →
        ((∃ u, (LinkUnit.decode bytes issued).1 = .ok u) ↔ img.WellFormed) ∧
        (¬ img.WellFormed →
          ∃ reason, (LinkUnit.decode bytes issued).1 = .error (.malformed reason)) := by
  have hiff : (∃ u, (img.decode issued).1 = .ok u) ↔ img.WellFormed :=
    ⟨fun ⟨_, hu⟩ => wellFormed_of_decode hu, fun h => h.exists_decode issued⟩
  have herror : ¬ img.WellFormed → ∃ reason, (img.decode issued).1 = .error reason := by
    intro h
    cases hdecode : (img.decode issued).1 with
    | error reason => exact ⟨reason, rfl⟩
    | ok u => exact absurd (wellFormed_of_decode hdecode) h
  refine ⟨hiff, herror, fun bytes hbytes => ?_⟩
  rw [← hiff, LinkUnit.decode, hbytes]
  cases hdecode : img.decode issued with
  | mk r next => cases r <;> simp [hdecode]

end Linkage.Image
