import Linkage.Symbol
import Mathlib.Algebra.Group.Nat.Defs
import Mathlib.Data.List.Nodup

/-!
# Interning

A table of symbols finds a handle in two ways, by its name and by its identifier. Both indices list
the same handles at every point of every run, so that names and handles correspond one to one
(`SymbolTable.run_bijective`): interning adds a handle to both of them or leaves them alone, and
nothing else but a reset touches them.
-/

namespace Linkage.SymbolTable

-- ---------------------------------------------------------------------------
-- Tables
-- ---------------------------------------------------------------------------

/-- Both indices list the same handles, each under its name and at the place of its identifier.
Every handle was made by the table, each at a time of its own. -/
structure Indexed (t : SymbolTable) : Prop where
  lookup : ∀ name x, t.lookup name = some x ↔ x ∈ t.byId.toList ∧ x.name = name
  id : ∀ (i : Nat) x, t.byId.toList[i]? = some x → x.id = UInt32.ofNat i
  times : t.byId.toList.Pairwise (·.made < ·.made)
  made : ∀ x ∈ t.byId.toList, x.made < t.made
  table : ∀ x ∈ t.byId.toList, x.table = t.serial

section
variable {t : SymbolTable} {name : String} {x y : Symbol}

theorem intern_cases (t : SymbolTable) (name : String) :
    (∃ x, t.lookup name = some x ∧ t.intern name = (x, t)) ∨
      t.lookup name = none ∧ t.intern name = (t.fresh name, t.add name) := by
  unfold intern
  cases t.lookup name with
  | none => exact .inr ⟨rfl, rfl⟩
  | some x => exact .inl ⟨x, rfl, rfl⟩

theorem lookup_add (t : SymbolTable) (name other : String) :
    (t.add name).lookup other =
      if other = name then some (t.fresh name) else t.lookup other := by
  simp only [lookup, add, List.lookup_cons]
  by_cases h : other = name
  · simp [h]
  · simp [h, beq_false_of_ne h]

theorem byId_add (t : SymbolTable) (name : String) :
    (t.add name).byId.toList = t.byId.toList ++ [t.fresh name] := by
  simp [add]

theorem all_add (t : SymbolTable) (name : String) : (t.add name).all = t.all ++ [name] := by
  simp [all, byId_add, fresh]

theorem size_eq (t : SymbolTable) : t.size = t.all.length := by
  simp [size, all]

theorem indexed_new (serial made : Nat) : Indexed { serial, made } :=
  ⟨by simp [SymbolTable.lookup], by simp, by simp, by simp, by simp⟩

theorem Indexed.mem_all (h : t.Indexed) : name ∈ t.all ↔ (t.lookup name).isSome = true := by
  simp only [all, List.mem_map, Option.isSome_iff_exists, h.lookup]

theorem Indexed.add (h : t.Indexed) (hname : t.lookup name = none) : (t.add name).Indexed := by
  have hnew : ∀ x ∈ t.byId.toList, x.name ≠ name := by
    intro x hx hx'
    simpa [hname] using (h.lookup name x).mpr ⟨hx, hx'⟩
  refine ⟨fun other x => ?_, fun i x hx => ?_, ?_, ?_, ?_⟩
  · rw [lookup_add, byId_add, List.mem_append, List.mem_singleton]
    by_cases hother : other = name
    · subst hother
      rw [if_pos rfl, Option.some_inj]
      constructor
      · rintro rfl
        exact ⟨.inr rfl, rfl⟩
      · rintro ⟨hx | rfl, hx'⟩
        · exact absurd hx' (hnew x hx)
        · rfl
    · rw [if_neg hother, h.lookup]
      refine ⟨fun hx => ⟨.inl hx.1, hx.2⟩, ?_⟩
      rintro ⟨hx | rfl, hx'⟩
      · exact ⟨hx, hx'⟩
      · exact absurd hx'.symm hother
  · rw [byId_add] at hx
    have hlast : t.byId.toList[i]? = some x ∨ t.byId.toList.length = i ∧ t.fresh name = x := by
      grind
    rcases hlast with hx | ⟨rfl, rfl⟩
    · exact h.id i x hx
    · simp [fresh]
  · rw [byId_add, List.pairwise_append]
    exact ⟨h.times, by simp, fun x hx y hy => by
      obtain rfl := List.mem_singleton.mp hy
      exact h.made x hx⟩
  · rw [byId_add]
    exact List.forall_mem_append.mpr
      ⟨fun x hx => Nat.lt_succ_of_lt (h.made x hx), by simp [fresh, SymbolTable.add]⟩
  · rw [byId_add]
    exact List.forall_mem_append.mpr ⟨h.table, by simp [fresh, SymbolTable.add]⟩

theorem Indexed.intern (h : t.Indexed) (name : String) : (t.intern name).2.Indexed := by
  obtain ⟨x, -, hintern⟩ | ⟨hnone, hintern⟩ := t.intern_cases name
  · rwa [hintern]
  · rw [hintern]
    exact h.add hnone

theorem Indexed.reset (t : SymbolTable) : t.reset.Indexed := indexed_new t.serial t.made

theorem lookup_intern_self (t : SymbolTable) (name : String) :
    (t.intern name).2.lookup name = some (t.intern name).1 := by
  obtain ⟨x, hx, hintern⟩ | ⟨-, hintern⟩ := t.intern_cases name
  · rw [hintern, hx]
  · rw [hintern, lookup_add, if_pos rfl]

theorem lookup_intern_of_some (h : t.lookup name = some x) (other : String) :
    (t.intern other).2.lookup name = some x := by
  obtain ⟨y, -, hintern⟩ | ⟨hnone, hintern⟩ := t.intern_cases other
  · rwa [hintern]
  · have hne : name ≠ other := by
      rintro rfl
      simp [hnone] at h
    rw [hintern, lookup_add, if_neg hne, h]

theorem Indexed.all_intern (h : t.Indexed) (name : String) :
    (t.intern name).2.all = if name ∈ t.all then t.all else t.all ++ [name] := by
  obtain ⟨x, hx, hintern⟩ | ⟨hnone, hintern⟩ := t.intern_cases name
  · rw [hintern, if_pos (h.mem_all.mpr (by simp [hx]))]
  · rw [hintern, if_neg (by simp [h.mem_all, hnone]), all_add]

theorem Indexed.nodup_all (h : t.Indexed) : t.all.Nodup := by
  refine List.pairwise_map.mpr (h.times.imp_of_mem fun {x y} hx hy hlt hname => ?_)
  have hlookup := (h.lookup y.name y).mpr ⟨hy, rfl⟩
  rw [← hname, (h.lookup x.name x).mpr ⟨hx, rfl⟩] at hlookup
  obtain rfl := Option.some.inj hlookup
  exact Nat.lt_irrefl _ hlt

theorem Indexed.name_of_lookup (h : t.Indexed) (hx : t.lookup name = some x) : x.name = name :=
  ((h.lookup name x).mp hx).2

theorem Indexed.made_of_lookup (h : t.Indexed) (hx : t.lookup name = some x) : x.made < t.made :=
  h.made x ((h.lookup name x).mp hx).1

theorem made_le_intern (t : SymbolTable) (name : String) : t.made ≤ (t.intern name).2.made := by
  obtain ⟨x, -, hintern⟩ | ⟨-, hintern⟩ := t.intern_cases name
  · exact hintern ▸ Nat.le_refl t.made
  · exact hintern ▸ Nat.le_succ t.made

/-- The identifier of a handle is the place of its name, unless there are too many of them. -/
theorem Indexed.all_id (h : t.Indexed) (hx : t.lookup name = some x) (hlt : t.all.length < 2 ^ 32) :
    t.all[x.id.toNat]? = some name := by
  obtain ⟨hmem, hname⟩ := (h.lookup name x).mp hx
  obtain ⟨i, hi⟩ := List.mem_iff_getElem?.mp hmem
  have hlen : i < t.all.length := by
    simpa [all] using (List.getElem?_eq_some_iff.mp hi).1
  rw [h.id i x hi, UInt32.toNat_ofNat_of_lt' (by rw [UInt32.size]; omega), all, List.getElem?_map,
    hi, Option.map_some, hname]

theorem Indexed.eq_of_made (h : t.Indexed) (hx : x ∈ t.byId.toList) (hy : y ∈ t.byId.toList)
    (heq : x.made = y.made) : x = y := by
  have hnodup : (t.byId.toList.map (·.made)).Nodup :=
    List.pairwise_map.mpr (h.times.imp Nat.ne_of_lt)
  exact List.inj_on_of_nodup_map hnodup hx hy heq

end

-- ---------------------------------------------------------------------------
-- Runs
-- ---------------------------------------------------------------------------

inductive Request where
  | intern (name : String)
  | lookup (name : String)
  | reset
  deriving DecidableEq, Repr

def Request.interned? : Request → Option String
  | .intern name => some name
  | _ => none

def Request.isLookup : Request → Bool
  | .lookup _ => true
  | _ => false

/-- A run on a table: the table as it is now, and what was asked and answered since it was reset. -/
structure Run where
  table : SymbolTable
  log : List (Request × Option Symbol) := []
  deriving DecidableEq, Repr

namespace Run

def ask (r : Run) : Request → Run
  | .intern name =>
    let (x, table) := r.table.intern name
    ⟨table, r.log ++ [(.intern name, some x)]⟩
  | .lookup name => ⟨r.table, r.log ++ [(.lookup name, r.table.lookup name)]⟩
  | .reset => ⟨r.table.reset, []⟩

def withoutLookups (r : Run) : Run := ⟨r.table, r.log.filter (!·.1.isLookup)⟩

def interned (r : Run) : List String := r.log.filterMap (·.1.interned?)

def returned (r : Run) : List Symbol := r.log.filterMap (·.2)

end Run

def run (serial : Nat) (requests : List Request) : Run :=
  requests.foldl Run.ask { table := { serial } }

namespace Run

/-- What a table has answered it would answer again. -/
def Stands (t : SymbolTable) : Request × Option Symbol → Prop
  | (.intern name, answer) => ∃ x, answer = some x ∧ t.lookup name = some x
  | (.lookup name, answer) => ∀ x, answer = some x → t.lookup name = some x
  | (.reset, _) => False

structure Sound (r : Run) : Prop where
  indexed : r.table.Indexed
  stands : ∀ entry ∈ r.log, Stands r.table entry
  all : r.table.all = r.interned.eraseDups

section
variable {r : Run} {name : String} {x y : Symbol}

theorem Stands.mono {t t' : SymbolTable} {entry : Request × Option Symbol}
    (h : ∀ name x, t.lookup name = some x → t'.lookup name = some x) (he : Stands t entry) :
    Stands t' entry := by
  obtain ⟨request, answer⟩ := entry
  cases request with
  | intern name =>
    obtain ⟨x, hanswer, hx⟩ := he
    exact ⟨x, hanswer, h name x hx⟩
  | lookup name => exact fun x hanswer => h name x (he x hanswer)
  | reset => exact he

theorem eraseDups_concat (names : List String) (name : String) :
    (names ++ [name]).eraseDups =
      if name ∈ names.eraseDups then names.eraseDups else names.eraseDups ++ [name] := by
  by_cases h : name ∈ names <;>
    simp [List.eraseDups_append, List.eraseDups_cons, List.removeAll, h]

theorem Sound.intern (h : r.Sound) (name : String) : (r.ask (.intern name)).Sound where
  indexed := h.indexed.intern name
  stands := by
    refine List.forall_mem_append.mpr ⟨fun entry he => ?_, List.forall_mem_singleton.mpr ?_⟩
    · exact (h.stands entry he).mono fun other x hx => lookup_intern_of_some hx name
    · exact ⟨_, rfl, r.table.lookup_intern_self name⟩
  all := by
    have hinterned : (r.ask (.intern name)).interned = r.interned ++ [name] := by
      simp [interned, ask, Request.interned?]
    rw [hinterned, eraseDups_concat, ← h.all]
    exact h.indexed.all_intern name

theorem Sound.lookup (h : r.Sound) (name : String) : (r.ask (.lookup name)).Sound where
  indexed := h.indexed
  stands := List.forall_mem_append.mpr
    ⟨h.stands, List.forall_mem_singleton.mpr fun _ hx => hx⟩
  all := by
    have hinterned : (r.ask (.lookup name)).interned = r.interned := by
      simp [interned, ask, Request.interned?]
    rw [hinterned]
    exact h.all

theorem Sound.reset (r : Run) : (r.ask .reset).Sound where
  indexed := Indexed.reset r.table
  stands := by simp [ask]
  all := rfl

theorem Sound.ask (h : r.Sound) (request : Request) : (r.ask request).Sound := by
  cases request with
  | intern name => exact h.intern name
  | lookup name => exact h.lookup name
  | reset => exact .reset r

theorem sound_run (serial : Nat) (requests : List Request) : (run serial requests).Sound := by
  have hstart : Sound { table := { serial } } := ⟨indexed_new serial 0, by simp, rfl⟩
  unfold run
  generalize ({ table := { serial } } : Run) = r at hstart
  induction requests generalizing r with
  | nil => exact hstart
  | cons request rest ih => exact ih (r.ask request) (hstart.ask request)

theorem Sound.lookup_returned (h : r.Sound) (hx : x ∈ r.returned) :
    r.table.lookup x.name = some x := by
  obtain ⟨⟨request, answer⟩, hentry, hanswer⟩ := List.mem_filterMap.mp hx
  obtain rfl : answer = some x := hanswer
  have hstands := h.stands _ hentry
  have hfound : ∃ name, r.table.lookup name = some x := by
    cases request with
    | intern name =>
      obtain ⟨y, hy, hlookup⟩ := hstands
      obtain rfl := Option.some.inj hy
      exact ⟨name, hlookup⟩
    | lookup name => exact ⟨name, hstands x rfl⟩
    | reset => exact hstands.elim
  obtain ⟨name, hname⟩ := hfound
  rw [h.indexed.name_of_lookup hname, hname]

theorem mem_interned : name ∈ r.interned ↔ ∃ answer, (.intern name, answer) ∈ r.log := by
  simp only [interned, List.mem_filterMap, Prod.exists]
  constructor
  · rintro ⟨request, answer, hentry, hname⟩
    cases request with
    | intern other =>
      obtain rfl := Option.some.inj hname
      exact ⟨answer, hentry⟩
    | lookup other => cases hname
    | reset => cases hname
  · rintro ⟨answer, hentry⟩
    exact ⟨.intern name, answer, hentry, rfl⟩

theorem Sound.lookup_iff (h : r.Sound) :
    r.table.lookup name = some x ↔ (.intern name, some x) ∈ r.log := by
  constructor
  · intro hx
    have hmem : name ∈ r.table.all := h.indexed.mem_all.mpr (by simp [hx])
    rw [h.all, List.mem_eraseDups, mem_interned] at hmem
    obtain ⟨answer, hentry⟩ := hmem
    obtain ⟨y, rfl, hy⟩ := h.stands _ hentry
    obtain rfl := Option.some.inj (hx.symm.trans hy)
    exact hentry
  · intro hentry
    obtain ⟨y, hy, hlookup⟩ := h.stands _ hentry
    obtain rfl := Option.some.inj hy
    exact hlookup

/-- Leaving out what is only looked up changes neither the table nor any other answer. -/
theorem foldl_ask_filter (r : Run) (requests : List Request) :
    (requests.filter (!·.isLookup)).foldl ask r.withoutLookups =
      (requests.foldl ask r).withoutLookups := by
  induction requests generalizing r with
  | nil => rfl
  | cons request rest ih =>
    cases request with
    | lookup name =>
      have hask : (r.ask (.lookup name)).withoutLookups = r.withoutLookups := by
        simp [withoutLookups, ask, Request.isLookup]
      exact hask ▸ ih (r.ask (.lookup name))
    | intern name =>
      have hask : r.withoutLookups.ask (.intern name) = (r.ask (.intern name)).withoutLookups := by
        simp [withoutLookups, ask, Request.isLookup]
      rw [List.filter_cons_of_pos rfl, List.foldl_cons, hask]
      exact ih (r.ask (.intern name))
    | reset => exact ih (r.ask .reset)

end

end Run

/-- Names and handles correspond one to one at every point of every run. Of the handles returned
since the last reset, two are the same one exactly if their names are equal; a name is found exactly
if it was interned since then, and what is found is the handle that interning returned; the names
are listed in the order in which they were first interned, and the identifier of a handle is the
place of its name. Looking up changes nothing. -/
theorem run_bijective (serial : Nat) (requests : List Request) :
    let r := run serial requests
    (∀ x ∈ r.returned, ∀ y ∈ r.returned,
      (x = y ↔ x.name = y.name) ∧ (x = y ↔ x.table = y.table ∧ x.made = y.made)) ∧
    (∀ name, (r.table.lookup name).isSome = true ↔ name ∈ r.interned) ∧
    (∀ name x, r.table.lookup name = some x ↔ (.intern name, some x) ∈ r.log) ∧
    r.table.all = r.interned.eraseDups ∧ r.table.all.Nodup ∧
    (r.interned.eraseDups.length < 2 ^ 32 →
      ∀ x ∈ r.returned, r.table.all[x.id.toNat]? = some x.name) ∧
    r.table.size = r.table.all.length ∧
    run serial (requests.filter (!·.isLookup)) = r.withoutLookups := by
  intro r
  have hr : r.Sound := Run.sound_run serial requests
  refine ⟨fun x hx y hy => ?_, fun name => ?_, fun name x => hr.lookup_iff, hr.all,
    hr.indexed.nodup_all, fun hlt x hx => ?_, size_eq r.table,
    Run.foldl_ask_filter { table := { serial } } requests⟩
  · have hx := hr.lookup_returned hx
    have hy := hr.lookup_returned hy
    refine ⟨⟨congrArg Symbol.name, fun hname => ?_⟩,
      fun heq => heq ▸ ⟨rfl, rfl⟩, fun hsame => ?_⟩
    · rw [hname, hy] at hx
      exact (Option.some.inj hx).symm
    · exact hr.indexed.eq_of_made ((hr.indexed.lookup _ _).mp hx).1
        ((hr.indexed.lookup _ _).mp hy).1 hsame.2
  · rw [← hr.indexed.mem_all, hr.all, List.mem_eraseDups]
  · exact hr.indexed.all_id (hr.lookup_returned hx) (hr.all ▸ hlt)

def resetRequests : List Request :=
  [.intern "a", .intern "b", .reset, .lookup "a", .intern "b", .intern "a", .intern "b",
    .lookup "a"]

theorem run_bijective_reset :
    let r := run 0 resetRequests
    r.table.all = ["b", "a"] ∧ r.interned.eraseDups.length < 2 ^ 32 ∧
      ∀ x ∈ r.returned, r.table.all[x.id.toNat]? = some x.name := by
  intro r
  have hlt : r.interned.eraseDups.length < 2 ^ 32 := by decide
  exact ⟨by decide, hlt, (run_bijective 0 resetRequests).2.2.2.2.2.1 hlt⟩

end Linkage.SymbolTable
