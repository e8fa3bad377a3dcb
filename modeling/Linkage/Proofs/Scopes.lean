import Linkage.Scope
import Linkage.Proofs.Texts
import Mathlib.Data.Finset.Card
import Mathlib.Data.List.Forall2
import Mathlib.Data.String.Basic
import Mathlib.Tactic.SplitIfs

/-!
# Scopes as finite maps

However a scope came about by updates, it answers for the updates on the way to it and for no
others. A name is bound to what its updates come to, where a value stays if the next one is the same
to the relation that the updates were made with; nothing is asked of that relation. The bindings are
listed in the order of the bytes of their names.

Scopes are derived from each other in any order, so the updates on the way to a scope need not be
the latest ones.
-/

namespace Linkage

-- ---------------------------------------------------------------------------
-- Values derived from each other
-- ---------------------------------------------------------------------------

section
variable {σ β : Type}

/-- Makes a new value from an earlier one, which stays. A step from a value that is not there makes
none. -/
def derive (f : σ → β → σ) (made : List σ) (step : Nat × β) : List σ :=
  match made[step.1]? with
  | some s => made ++ [f s step.2]
  | none => made

def derived (f : σ → β → σ) (root : σ) (steps : List (Nat × β)) : List σ :=
  steps.foldl (derive f) [root]

/-- What is on the way from the root to each value. -/
def lineages (steps : List (Nat × β)) : List (List β) :=
  derived (fun path b => path ++ [b]) [] steps

theorem derive_map (f : σ → β → σ) (root : σ) (paths : List (List β)) (step : Nat × β) :
    derive f (paths.map (·.foldl f root)) step =
      (derive (fun path b => path ++ [b]) paths step).map (·.foldl f root) := by
  unfold derive
  rw [List.getElem?_map]
  cases paths[step.1]? with
  | none => rfl
  | some path => simp

theorem derived_eq (f : σ → β → σ) (root : σ) (steps : List (Nat × β)) :
    derived f root steps = (lineages steps).map (·.foldl f root) := by
  have hrun : ∀ paths : List (List β), steps.foldl (derive f) (paths.map (·.foldl f root)) =
      (steps.foldl (derive fun path b => path ++ [b]) paths).map (·.foldl f root) := by
    induction steps with
    | nil => exact fun _ => rfl
    | cons step steps ih =>
      intro paths
      rw [List.foldl_cons, List.foldl_cons, derive_map, ih]
  exact hrun [[]]

theorem prefix_foldl_derive (f : σ → β → σ) (made : List σ) (steps : List (Nat × β)) :
    made <+: steps.foldl (derive f) made := by
  induction steps generalizing made with
  | nil => exact List.prefix_rfl
  | cons step steps ih =>
    refine List.IsPrefix.trans ?_ (ih (derive f made step))
    unfold derive
    split
    · exact List.prefix_append _ _
    · exact List.prefix_rfl

theorem derived_prefix (f : σ → β → σ) (root : σ) (steps more : List (Nat × β)) :
    derived f root steps <+: derived f root (steps ++ more) := by
  rw [derived, derived, List.foldl_append]
  exact prefix_foldl_derive f _ more

end

-- ---------------------------------------------------------------------------
-- The order of names
-- ---------------------------------------------------------------------------

namespace Utf8

theorem ofNat_lt_ofNat (hm : m < 256) (hn : n < 256) : UInt8.ofNat m < UInt8.ofNat n ↔ m < n := by
  rw [UInt8.lt_iff_toNat_lt, UInt8.toNat_ofNat_of_lt' hm, UInt8.toNat_ofNat_of_lt' hn]

theorem ofNat_eq_ofNat (hm : m < 256) (hn : n < 256) : UInt8.ofNat m = UInt8.ofNat n ↔ m = n := by
  rw [← UInt8.toNat_inj, UInt8.toNat_ofNat_of_lt' hm, UInt8.toNat_ofNat_of_lt' hn]

theorem sixBits_lt {m n : Nat} (h : m < n) :
    m / 64 < n / 64 ∨ m / 64 = n / 64 ∧ m % 64 < n % 64 := by
  omega

/-- A greater character has greater bytes, whatever bytes follow. -/
theorem encodeChar_append_lt {c d : Char} (h : c < d) (xs ys : List UInt8) :
    String.utf8EncodeChar c ++ xs < String.utf8EncodeChar d ++ ys := by
  have hlt : c.val.toNat < d.val.toNat := h
  have hmax : d.val.toNat < 1114112 := by
    rcases d.valid with hd | hd
    · exact Nat.lt_trans hd (by decide)
    · exact hd.2
  simp only [String.utf8EncodeChar]
  generalize c.val.toNat = m at *
  generalize d.val.toNat = n at *
  by_cases hfour : m ≤ 65535
  · split_ifs
    all_goals
      simp (disch := omega) only [List.cons_append, List.nil_append, List.cons_lt_cons_iff,
        ofNat_lt_ofNat, ofNat_eq_ofNat]
      omega
  · -- both take four bytes, and the first six bits that differ decide
    have hbits (k : Nat) : k / 64 / 64 = k / 4096 ∧ k / 4096 / 64 = k / 262144 := by omega
    have hm := hbits m
    have hn := hbits n
    rw [if_neg (by omega), if_neg (by omega), if_neg hfour, if_neg (by omega), if_neg (by omega),
      if_neg (by omega)]
    simp (disch := omega) only [List.cons_append, List.nil_append, List.cons_lt_cons_iff,
      ofNat_lt_ofNat, ofNat_eq_ofNat]
    rcases sixBits_lt hlt with hlt | ⟨heq, hlt⟩
    · rcases sixBits_lt hlt with hlt | ⟨heq, hlt⟩
      · rw [hm.1, hn.1] at hlt
        rcases sixBits_lt hlt with hlt | ⟨heq, hlt⟩
        · omega
        · omega
      · omega
    · omega

theorem flatMap_encodeChar_lt {cs ds : List Char} (h : cs < ds) :
    cs.flatMap String.utf8EncodeChar < ds.flatMap String.utf8EncodeChar := by
  induction ds generalizing cs with
  | nil => exact absurd h (List.not_lt_nil cs)
  | cons d ds ih =>
    rw [List.flatMap_cons]
    cases cs with
    | nil =>
      cases hd : String.utf8EncodeChar d with
      | nil => exact absurd hd String.utf8EncodeChar_ne_nil
      | cons b bytes => exact List.nil_lt_cons _ _
    | cons c cs =>
      rw [List.flatMap_cons]
      rcases List.cons_lt_cons_iff.mp h with hlt | ⟨rfl, hrest⟩
      · exact encodeChar_append_lt hlt _ _
      · exact List.append_left_lt (ih hrest)

theorem bytesOf_lt_bytesOf {s t : String} (h : s < t) : bytesOf s < bytesOf t := by
  have hbytes := flatMap_encodeChar_lt (String.lt_iff_toList_lt.mp h)
  rwa [← bytesOf_ofList, ← bytesOf_ofList, String.ofList_toList, String.ofList_toList] at hbytes

end Utf8

namespace Symbol

variable {a b : Symbol}

theorem compare_eq_lt : a.compare b = .lt ↔ a.name < b.name := compare_lt_iff_lt

theorem compare_eq_gt : a.compare b = .gt ↔ b.name < a.name := compare_gt_iff_gt

theorem compare_eq_eq : a.compare b = .eq ↔ a.name = b.name := compare_eq_iff_eq

end Symbol

namespace Scope

section
variable {α : Type} {same : α → α → Bool} {version : Nat} {key : Symbol} {value : α}
  {s left right : Scope α}

-- ---------------------------------------------------------------------------
-- One update
-- ---------------------------------------------------------------------------

/-- The value of a name after an update: the old one if it is the same. -/
def settle (same : α → α → Bool) (old : Option α) (value : α) : α :=
  match old with
  | none => value
  | some v => if same v value then v else value

/-- Versions apart, an update goes into the side that the key belongs to. -/
theorem update_node (same : α → α → Bool) (version : Nat) (key : Symbol) (value : α) (n : Nat)
    (k : Symbol) (old : α) (left right : Scope α) :
    ∃ n', (node n k old left right).update same version key value =
      match k.compare key with
      | .lt => node n' k old (left.update same version key value) right
      | .gt => node n' k old left (right.update same version key value)
      | .eq => node n' k (settle same (some old) value) left right := by
  unfold update
  rw [update?]
  cases k.compare key with
  | lt =>
    cases left.update? same version key value with
    | none => exact ⟨n, rfl⟩
    | some left' => exact ⟨version, rfl⟩
  | gt =>
    cases right.update? same version key value with
    | none => exact ⟨n, rfl⟩
    | some right' => exact ⟨version, rfl⟩
  | eq =>
    cases hsame : same old value with
    | true => exact ⟨n, by simp [settle, hsame]⟩
    | false => exact ⟨version, by simp [settle, hsame]⟩

theorem lookup_congr {x y : Symbol} (h : x.name = y.name) : s.lookup x = s.lookup y := by
  induction s with
  | empty => rfl
  | node n k old left right ihl ihr =>
    have hcompare : k.compare x = k.compare y := by simp only [Symbol.compare, h]
    rw [lookup, lookup, hcompare, ihl, ihr]

theorem lookup_update (x : Symbol) :
    (s.update same version key value).lookup x =
      if x.name = key.name then some (settle same (s.lookup key) value) else s.lookup x := by
  induction s with
  | empty =>
    have hnew : (empty.update same version key value).lookup x =
        match key.compare x with
        | .lt => none
        | .gt => none
        | .eq => some value := rfl
    rw [hnew]
    cases hx : key.compare x with
    | lt => rw [if_neg (Symbol.compare_eq_lt.mp hx).ne', lookup]
    | gt => rw [if_neg (Symbol.compare_eq_gt.mp hx).ne, lookup]
    | eq => rw [if_pos (Symbol.compare_eq_eq.mp hx).symm, lookup, settle]
  | node n k old left right ihl ihr =>
    obtain ⟨n', hnode⟩ := update_node same version key value n k old left right
    rw [hnode]
    by_cases hx : x.name = key.name
    · have hcompare : k.compare x = k.compare key := by simp only [Symbol.compare, hx]
      rw [if_pos hx] at ihl ihr ⊢
      cases hk : k.compare key with
      | lt => simp only [lookup, hcompare, hk, ihl]
      | gt => simp only [lookup, hcompare, hk, ihr]
      | eq => simp only [lookup, hcompare, hk]
    · rw [if_neg hx] at ihl ihr ⊢
      cases hk : k.compare key with
      | lt => simp only [lookup, ihl]
      | gt => simp only [lookup, ihr]
      | eq =>
        have hne : k.compare x ≠ .eq := fun h =>
          hx ((Symbol.compare_eq_eq.mp h).symm.trans (Symbol.compare_eq_eq.mp hk))
        cases hxk : k.compare x with
        | lt => simp only [lookup, hxk]
        | gt => simp only [lookup, hxk]
        | eq => exact absurd hxk hne

-- ---------------------------------------------------------------------------
-- Bindings in order
-- ---------------------------------------------------------------------------

def names (s : Scope α) : List String := s.toList.map (·.1.name)

def Ordered (s : Scope α) : Prop := s.names.Pairwise (· < ·)

theorem names_node (n : Nat) (k : Symbol) (old : α) (left right : Scope α) :
    (node n k old left right).names = right.names ++ k.name :: left.names := by
  simp [names, toList]

theorem ordered_node (n : Nat) (k : Symbol) (old : α) (left right : Scope α) :
    (node n k old left right).Ordered ↔ left.Ordered ∧ right.Ordered ∧
      (∀ name ∈ left.names, k.name < name) ∧ ∀ name ∈ right.names, name < k.name := by
  rw [Ordered, names_node, List.pairwise_append, List.pairwise_cons]
  constructor
  · rintro ⟨hright, ⟨habove, hleft⟩, hacross⟩
    exact ⟨hleft, hright, habove, fun name h => hacross name h k.name List.mem_cons_self⟩
  · rintro ⟨hleft, hright, habove, hbelow⟩
    refine ⟨hright, ⟨habove, hleft⟩, fun name h other hother => ?_⟩
    rcases List.mem_cons.mp hother with rfl | hother
    · exact hbelow name h
    · exact (hbelow name h).trans (habove other hother)

theorem mem_names_update {name : String} :
    name ∈ (s.update same version key value).names ↔ name = key.name ∨ name ∈ s.names := by
  induction s with
  | empty => simp [update, update?, names, toList]
  | node n k old left right ihl ihr =>
    obtain ⟨n', hnode⟩ := update_node same version key value n k old left right
    rw [hnode, names_node]
    cases hk : k.compare key with
    | lt =>
      simp only [names_node, List.mem_append, List.mem_cons, ihl]
      grind
    | gt =>
      simp only [names_node, List.mem_append, List.mem_cons, ihr]
      grind
    | eq =>
      simp only [names_node, List.mem_append, List.mem_cons, Symbol.compare_eq_eq.mp hk]
      grind

theorem Ordered.update (h : s.Ordered) : (s.update same version key value).Ordered := by
  induction s with
  | empty => simp [Scope.update, update?, Ordered, names, toList]
  | node n k old left right ihl ihr =>
    obtain ⟨n', hnode⟩ := update_node same version key value n k old left right
    obtain ⟨hleft, hright, habove, hbelow⟩ := (ordered_node n k old left right).mp h
    rw [hnode]
    cases hk : k.compare key with
    | lt =>
      refine (ordered_node ..).mpr ⟨ihl hleft, hright, fun name hname => ?_, hbelow⟩
      rcases mem_names_update.mp hname with rfl | hname
      · exact Symbol.compare_eq_lt.mp hk
      · exact habove name hname
    | gt =>
      refine (ordered_node ..).mpr ⟨hleft, ihr hright, habove, fun name hname => ?_⟩
      rcases mem_names_update.mp hname with rfl | hname
      · exact Symbol.compare_eq_gt.mp hk
      · exact hbelow name hname
    | eq => exact (ordered_node ..).mpr ⟨hleft, hright, habove, hbelow⟩

theorem mem_names_of_mem {b : Symbol × α} (h : b ∈ s.toList) : b.1.name ∈ s.names :=
  List.mem_map_of_mem h

theorem Ordered.lookup_iff (h : s.Ordered) {x : Symbol} {v : α} :
    s.lookup x = some v ↔ ∃ k, (k, v) ∈ s.toList ∧ k.name = x.name := by
  induction s with
  | empty => simp [lookup, toList]
  | node n k old left right ihl ihr =>
    obtain ⟨hleft, hright, habove, hbelow⟩ := (ordered_node n k old left right).mp h
    -- a binding on the other side, or in the node, has another name
    have hleft' : ∀ {k' v'}, (k', v') ∈ left.toList → k'.name = x.name → k.name < x.name :=
      fun hmem hname => hname ▸ habove _ (mem_names_of_mem hmem)
    have hright' : ∀ {k' v'}, (k', v') ∈ right.toList → k'.name = x.name → x.name < k.name :=
      fun hmem hname => hname ▸ hbelow _ (mem_names_of_mem hmem)
    simp only [toList, List.mem_append, List.mem_cons, Prod.mk.injEq]
    cases hx : k.compare x with
    | lt =>
      have hlt := Symbol.compare_eq_lt.mp hx
      simp only [lookup, hx, ihl hleft]
      constructor
      · rintro ⟨k', hmem, hname⟩
        exact ⟨k', .inr (.inr hmem), hname⟩
      · rintro ⟨k', hmem | ⟨rfl, -⟩ | hmem, hname⟩
        · exact absurd (hright' hmem hname) hlt.asymm
        · exact absurd hname hlt.ne
        · exact ⟨k', hmem, hname⟩
    | gt =>
      have hgt := Symbol.compare_eq_gt.mp hx
      simp only [lookup, hx, ihr hright]
      constructor
      · rintro ⟨k', hmem, hname⟩
        exact ⟨k', .inl hmem, hname⟩
      · rintro ⟨k', hmem | ⟨rfl, -⟩ | hmem, hname⟩
        · exact ⟨k', hmem, hname⟩
        · exact absurd hname hgt.ne'
        · exact absurd (hleft' hmem hname) hgt.asymm
    | eq =>
      have heq := Symbol.compare_eq_eq.mp hx
      simp only [lookup, hx, Option.some.injEq]
      constructor
      · rintro rfl
        exact ⟨k, .inr (.inl ⟨rfl, rfl⟩), heq⟩
      · rintro ⟨k', hmem | ⟨-, rfl⟩ | hmem, hname⟩
        · exact absurd heq (hright' hmem hname).ne'
        · rfl
        · exact absurd heq (hleft' hmem hname).ne

theorem length_toList (s : Scope α) : s.toList.length = s.size := by
  induction s with
  | empty => rfl
  | node n k old left right ihl ihr =>
    rw [toList, List.length_append, List.length_cons, ihl, ihr, size]
    omega

end

-- ---------------------------------------------------------------------------
-- Any updates
-- ---------------------------------------------------------------------------

structure Update (α : Type) where
  version : Nat
  key : Symbol
  value : α

section
variable {α : Type}

def apply (same : α → α → Bool) (s : Scope α) (u : Update α) : Scope α :=
  s.update same u.version u.key u.value

/-- What the updates of a name come to, one after another. -/
def bound (same : α → α → Bool) (us : List (Update α)) (name : String) : Option α :=
  (us.filter (·.key.name = name)).foldl (fun old u => some (settle same old u.value)) none

/-- The scope is the finite map that the updates make. -/
structure Answers (same : α → α → Bool) (us : List (Update α)) (s : Scope α) : Prop where
  absent : ∀ x : Symbol, s.lookup x = none ↔ ∀ u ∈ us, u.key.name ≠ x.name
  lookup : ∀ x : Symbol, s.lookup x = bound same us x.name
  listed : ∀ name v, (∃ k, (k, v) ∈ s.toList ∧ k.name = name) ↔ bound same us name = some v
  ascending : (s.toList.map fun b => Utf8.bytesOf b.1.name).Pairwise (· < ·)
  size : s.size = (us.map (·.key.name)).toFinset.card

variable {same : α → α → Bool}

theorem bound_append (us : List (Update α)) (u : Update α) (name : String) :
    bound same (us ++ [u]) name =
      if name = u.key.name then some (settle same (bound same us name) u.value)
      else bound same us name := by
  rw [bound, List.filter_append, List.foldl_append]
  by_cases h : name = u.key.name
  · simp [bound, h]
  · simp [bound, h, Ne.symm h]

theorem bound_eq_none {us : List (Update α)} {name : String} :
    bound same us name = none ↔ ∀ u ∈ us, u.key.name ≠ name := by
  induction us using List.reverseRecOn with
  | nil => simp [bound]
  | append_singleton us u ih =>
    rw [bound_append, List.forall_mem_append, ← ih]
    by_cases h : name = u.key.name
    · simp [h]
    · simp [h, Ne.symm h]

theorem lookup_foldl (us : List (Update α)) (x : Symbol) :
    (us.foldl (apply same) .empty).lookup x = bound same us x.name := by
  induction us using List.reverseRecOn with
  | nil => rfl
  | append_singleton us u ih =>
    rw [List.foldl_append, List.foldl_cons, List.foldl_nil, apply, lookup_update, bound_append, ih]
    by_cases hx : x.name = u.key.name
    · rw [if_pos hx, if_pos hx, ← ih, lookup_congr hx]
    · rw [if_neg hx, if_neg hx]

theorem ordered_foldl (us : List (Update α)) : (us.foldl (apply same) .empty).Ordered := by
  induction us using List.reverseRecOn with
  | nil => exact .nil
  | append_singleton us u ih =>
    rw [List.foldl_append]
    exact ih.update

theorem mem_names_foldl (us : List (Update α)) {name : String} :
    name ∈ (us.foldl (apply same) .empty).names ↔ ∃ u ∈ us, u.key.name = name := by
  induction us using List.reverseRecOn with
  | nil => simp [names, toList]
  | append_singleton us u ih =>
    rw [List.foldl_append, List.foldl_cons, List.foldl_nil, apply, mem_names_update, ih]
    simp only [List.mem_append, List.mem_singleton, or_and_right, exists_or, exists_eq_left]
    rw [or_comm, eq_comm (a := name)]

theorem answers_foldl (same : α → α → Bool) (us : List (Update α)) :
    Answers same us (us.foldl (apply same) .empty) where
  absent x := by rw [lookup_foldl, bound_eq_none]
  lookup := lookup_foldl us
  listed name v := by
    rw [← (ordered_foldl us).lookup_iff (x := ⟨name, 0, 0, 0⟩), lookup_foldl]
  ascending := by
    have hordered : (us.foldl (apply same) .empty).Ordered := ordered_foldl us
    have hbytes := hordered.map Utf8.bytesOf fun _ _ => Utf8.bytesOf_lt_bytesOf
    rwa [names, List.map_map] at hbytes
  size := by
    have hnames : (us.foldl (apply same) .empty).names.toFinset =
        (us.map (·.key.name)).toFinset := by
      ext name
      simp only [List.mem_toFinset, mem_names_foldl, List.mem_map]
    have hnodup : (us.foldl (apply same) .empty).names.Nodup := (ordered_foldl us).imp ne_of_lt
    rw [← hnames, List.toFinset_card_of_nodup hnodup, names, List.length_map, length_toList]

/-- Every scope that updates make, from the empty one and from each other, is the finite map of the
updates on the way to it, and stays so whatever is made later. -/
theorem scopes_answer_for_updates (same : α → α → Bool) (steps : List (Nat × Update α)) :
    List.Forall₂ (Answers same) (lineages steps) (derived (apply same) .empty steps) ∧
      ∀ more,
        derived (apply same) .empty steps <+: derived (apply same) .empty (steps ++ more) := by
  refine ⟨?_, derived_prefix _ _ steps⟩
  rw [derived_eq, List.forall₂_map_right_iff, List.forall₂_same]
  exact fun us _ => answers_foldl same us

end

end Scope

end Linkage
