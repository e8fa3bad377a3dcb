import Linkage.Proofs.Reencoding
import Linkage.Proofs.SafeUnits

/-!
# Finding a body by its name

A name stands for the bodies that print as it, or else for those that have it as their short name.
The registry of a unit is enumerated in no fixed order. A search gives one answer in every order,
and the right one, exactly if no two bodies print as the name: of two that do, either may be
given.
-/

namespace Linkage.LinkUnit

section
variable {u : LinkUnit} {code : Registry} {name : String} {m m' : MemberId}

def PrintsAs (u : LinkUnit) (name : String) (m : MemberId) : Prop :=
  m ∈ u.code.map (·.1) ∧ u.declarations.signature m = .ok name

def ShortensTo (u : LinkUnit) (name : String) (m : MemberId) : Prop :=
  m ∈ u.code.map (·.1) ∧ u.declarations.shortName? m = some name

/-- The name stands for the body of the member. Signatures go before short names. -/
def Means (u : LinkUnit) (name : String) (m : MemberId) : Prop :=
  u.PrintsAs name m ∨ (∀ m', ¬ u.PrintsAs name m') ∧ u.ShortensTo name m

/-- What a search may answer: the one body that the name stands for, that there is none, or the
signatures of all if there are several. -/
def Resolves (u : LinkUnit) (name : String) : Except FindError MemberId → Prop
  | .ok m => ∀ m', u.Means name m' ↔ m' = m
  | .error (.noBody name') => name' = name ∧ ∀ m, ¬ u.Means name m
  | .error (.ambiguous name' signatures) =>
    name' = name ∧ (∃ m m', m ≠ m' ∧ u.Means name m ∧ u.Means name m') ∧
      signatures.Pairwise (· ≤ ·) ∧
      ∀ s, s ∈ signatures ↔ ∃ m, u.Means name m ∧ u.declarations.signature m = .ok s

/-- Whatever the order the bodies are enumerated in, a search for the name gives the same answer,
and one that it may give. -/
def Settles (u : LinkUnit) (name : String) : Prop :=
  ∀ code : Registry, code.Perm u.code →
    { u with code }.find name = u.find name ∧ u.Resolves name (u.find name)

-- ---------------------------------------------------------------------------
-- By signature
-- ---------------------------------------------------------------------------

theorem printsAs_of_lookup (h : u.lookup name = some m) : u.PrintsAs name m := by
  refine ⟨List.mem_of_find?_eq_some h, ?_⟩
  have hsame := List.find?_some h
  split at hsame
  · rename_i s hs
    rw [hs, eq_of_beq hsame]
  · cases hsame

theorem lookup_eq_none : u.lookup name = none ↔ ∀ m, ¬ u.PrintsAs name m := by
  refine ⟨fun h m hm => ?_, fun h => ?_⟩
  · simpa [hm.2] using List.find?_eq_none.mp h m hm.1
  · cases hlookup : u.lookup name with
    | none => rfl
    | some m => exact absurd (printsAs_of_lookup hlookup) (h m)

theorem find_of_lookup (h : u.lookup name = some m) : u.find name = .ok m := by
  rw [find, h]

theorem printsAs_perm (hperm : code.Perm u.code) :
    { u with code }.PrintsAs name m ↔ u.PrintsAs name m :=
  and_congr_left' (hperm.map Prod.fst).mem_iff

theorem find_of_first (hm : u.PrintsAs name m) :
    ∃ code : Registry, code.Perm u.code ∧ { u with code }.find name = .ok m := by
  -- a look-up stops at the first match, so the body is put in front of all others
  obtain ⟨body, hbody, rfl⟩ := List.mem_map.mp hm.1
  refine ⟨body :: List.erase u.code body, (List.perm_cons_erase hbody).symm, find_of_lookup ?_⟩
  simp [lookup, hm.2]

-- ---------------------------------------------------------------------------
-- By short name
-- ---------------------------------------------------------------------------

def answer (d : Declarations) (name : String) : List MemberId → Except FindError MemberId
  | [] => .error (.noBody name)
  | [m] => .ok m
  | found =>
    .error (.ambiguous name
      ((found.map fun m => embedded (d.signature m)).mergeSort fun a b => !decide (b < a)))

def shortened (u : LinkUnit) (name : String) : List MemberId :=
  (u.code.map (·.1)).filter fun m => u.declarations.shortName? m == some name

theorem mem_shortened : m ∈ u.shortened name ↔ u.ShortensTo name m := by
  rw [shortened, List.mem_filter, beq_iff_eq, ShortensTo]

theorem find_of_none (h : u.lookup name = none) :
    u.find name = answer u.declarations name (u.shortened name) := by
  rw [find, h]
  rfl

theorem answer_eq_of_perm {found found' : List MemberId} (d : Declarations)
    (h : found.Perm found') : answer d name found = answer d name found' := by
  match found' with
  | [] => rw [h.eq_nil]
  | [m] => rw [List.perm_singleton.mp h]
  | m₁ :: m₂ :: rest =>
    match found, h with
    | [], h => exact absurd h.symm.eq_nil (by simp)
    | [m], h => exact absurd h.length_eq (by simp)
    | m :: m' :: others, h =>
      -- the names are sorted, and texts that are sorted have one order
      refine congrArg (fun signatures => Except.error (FindError.ambiguous name signatures)) ?_
      refine List.Perm.eq_of_pairwise (fun a b _ _ hab hba => String.le_antisymm hab hba)
        (Declarations.mergeSort_ascending id _) (Declarations.mergeSort_ascending id _) ?_
      exact (List.mergeSort_perm _ _).trans ((h.map _).trans (List.mergeSort_perm _ _).symm)

theorem find_eq_of_perm (hnone : ∀ m, ¬ u.PrintsAs name m) (hperm : code.Perm u.code) :
    { u with code }.find name = u.find name := by
  have hnone' : ∀ m, ¬ { u with code }.PrintsAs name m :=
    fun m hm => hnone m ((printsAs_perm hperm).mp hm)
  rw [find_of_none (lookup_eq_none.mpr hnone), find_of_none (lookup_eq_none.mpr hnone')]
  exact answer_eq_of_perm u.declarations ((hperm.map Prod.fst).filter _)

theorem resolves_answer (hkeys : (u.code.map (·.1)).Nodup)
    (hsigned : ∀ m ∈ u.code.map (·.1), ∃ s, u.declarations.signature m = .ok s)
    (hnone : ∀ m, ¬ u.PrintsAs name m) :
    u.Resolves name (answer u.declarations name (u.shortened name)) := by
  have hmeans : ∀ m, u.Means name m ↔ m ∈ u.shortened name := fun m => by
    rw [mem_shortened, Means, or_iff_right (hnone m), and_iff_right hnone]
  have hnodup : (u.shortened name).Nodup := hkeys.filter _
  replace hsigned : ∀ m ∈ u.shortened name, ∃ s, u.declarations.signature m = .ok s :=
    fun m hm => hsigned m (mem_shortened.mp hm).1
  generalize u.shortened name = found at hmeans hnodup hsigned
  match found with
  | [] => exact ⟨rfl, fun m hm => List.not_mem_nil ((hmeans m).mp hm)⟩
  | [m] => exact fun m' => by rw [hmeans, List.mem_singleton]
  | m :: m' :: rest =>
    have hne : m ≠ m' := fun heq => (List.nodup_cons.mp hnodup).1 (heq ▸ List.mem_cons_self)
    refine ⟨rfl, ?_, Declarations.mergeSort_ascending id _, fun s => ?_⟩
    · exact ⟨m, m', hne, (hmeans m).mpr (by simp), (hmeans m').mpr (by simp)⟩
    rw [List.mem_mergeSort, List.mem_map]
    refine exists_congr fun k => ?_
    rw [← hmeans]
    refine and_congr_right fun hk => ?_
    obtain ⟨t, ht⟩ := hsigned k ((hmeans k).mp hk)
    rw [ht]
    exact ⟨congrArg Except.ok, Except.ok.inj⟩

-- ---------------------------------------------------------------------------
-- Units that were read
-- ---------------------------------------------------------------------------

theorem resolves_of_unique (hunique : ∀ m m', u.PrintsAs name m → u.PrintsAs name m' → m = m')
    (hm : u.PrintsAs name m) : u.Resolves name (.ok m) := by
  intro m'
  refine ⟨fun hmeans => ?_, fun heq => heq ▸ .inl hm⟩
  exact hmeans.elim (hunique m' m · hm) fun hshort => absurd hm (hshort.1 m)

theorem settles_of_unique (hkeys : (u.code.map (·.1)).Nodup)
    (hsigned : ∀ m ∈ u.code.map (·.1), ∃ s, u.declarations.signature m = .ok s)
    (hunique : ∀ m m', u.PrintsAs name m → u.PrintsAs name m' → m = m') : u.Settles name := by
  intro code hperm
  cases hlookup : u.lookup name with
  | none =>
    have hnone := lookup_eq_none.mp hlookup
    refine ⟨find_eq_of_perm hnone hperm, ?_⟩
    rw [find_of_none hlookup]
    exact resolves_answer hkeys hsigned hnone
  | some m =>
    have hm := printsAs_of_lookup hlookup
    rw [find_of_lookup hlookup]
    refine ⟨?_, resolves_of_unique hunique hm⟩
    cases hlookup' : { u with code }.lookup name with
    | none => exact absurd ((printsAs_perm hperm).mpr hm) (lookup_eq_none.mp hlookup' m)
    | some m' =>
      rw [find_of_lookup hlookup',
        hunique m' m ((printsAs_perm hperm).mp (printsAs_of_lookup hlookup')) hm]

theorem means_of_find (hkeys : (u.code.map (·.1)).Nodup)
    (hsigned : ∀ m ∈ u.code.map (·.1), ∃ s, u.declarations.signature m = .ok s)
    (hfind : u.find name = .ok m) : u.Means name m := by
  cases hlookup : u.lookup name with
  | none =>
    have hresolves := resolves_answer hkeys hsigned (lookup_eq_none.mp hlookup)
    rw [← find_of_none hlookup, hfind] at hresolves
    exact (hresolves m).mpr rfl
  | some m' =>
    obtain rfl := Except.ok.inj ((find_of_lookup hlookup).symm.trans hfind)
    exact .inl (printsAs_of_lookup hlookup)

/-- A search settles a name of a unit that was read exactly if at most one body prints as it. If
several do, each of them is found in some order. -/
theorem find_settles_iff {bytes : List UInt8} (hu : (LinkUnit.decode bytes issued).1 = .ok u)
    (name : String) :
    (u.Settles name ↔ ∀ m m', u.PrintsAs name m → u.PrintsAs name m' → m = m') ∧
      (∀ m, u.PrintsAs name m →
        ∃ code : Registry, code.Perm u.code ∧ { u with code }.find name = .ok m) ∧
      ∀ (code : Registry) (m : MemberId), code.Perm u.code →
        { u with code }.find name = .ok m → u.Means name m := by
  obtain ⟨img, -, hread⟩ := Image.exists_readFrom hu
  have hkeys := hread.bodies.keys
  have hsigned : ∀ m ∈ u.code.map (·.1), ∃ s, u.declarations.signature m = .ok s := fun m hm =>
    hread.signature_ok
      (Declarations.lt_of_isCode (hread.isCode (List.mem_cons_of_mem _ hm)))
  refine ⟨⟨fun hsettles m m' hm hm' => ?_, settles_of_unique hkeys hsigned⟩, ?_, ?_⟩
  · obtain ⟨code, hperm, hfind⟩ := find_of_first hm
    obtain ⟨code', hperm', hfind'⟩ := find_of_first hm'
    rw [(hsettles code hperm).1] at hfind
    rw [(hsettles code' hperm').1, hfind] at hfind'
    exact Except.ok.inj hfind'
  · exact fun m hm => find_of_first hm
  · intro code m hperm hfind
    have hmeans : { u with code }.Means name m :=
      means_of_find ((hperm.map Prod.fst).nodup_iff.mpr hkeys)
        (fun k hk => hsigned k ((hperm.map Prod.fst).mem_iff.mp hk)) hfind
    refine hmeans.imp (printsAs_perm hperm).mp (And.imp ?_ ?_)
    · exact fun hnone k hk => hnone k ((printsAs_perm hperm).mpr hk)
    · exact And.imp_left (hperm.map Prod.fst).mem_iff.mp

end

def twins : Image where
  version := 1
  classes := some [{ name := "Main" }]
  members := some [{ kind := 2, name := "main", type := "void" },
    { kind := 2, name := "main", type := "void" }]
  blocks := some [{ code := some [{ op := 17 }] }]
  bodies := some [{}, { member := 1 }]

def twinsUnit : LinkUnit where
  runId := .zero
  linked := false
  declarations := {
    classes := #[⟨"Main", none⟩]
    members := #[.method 0 "main" [] (.primitive .void), .method 0 "main" [] (.primitive .void)] }
  graph := {
    blocks := #[{ id := 0, code := [.ret .absent], succs := [], mergeable := true }]
    issued := 1 }
  entry := 0
  code := [(0, some 0), (1, some 0)]
  reachable := []

theorem decode_twins : (LinkUnit.decode twins.marshal 0).1 = .ok twinsUnit := by
  decide +kernel

theorem twins_printsAs (hm : m < 2) : twinsUnit.PrintsAs "Main.main():void" m := by
  have hsame : ∀ m < 2, m ∈ twinsUnit.code.map (·.1) ∧
      twinsUnit.declarations.signature m = .ok "Main.main():void" := by
    decide
  exact hsame m hm

theorem find_settles_iff_twins :
    (LinkUnit.decode twins.marshal 0).1 = .ok twinsUnit ∧
      ¬ twinsUnit.Settles "Main.main():void" ∧ twinsUnit.Settles "Main.main" ∧
      ∃ code : Registry, code.Perm twinsUnit.code ∧
        { twinsUnit with code }.find "Main.main():void" = .ok 1 := by
  obtain ⟨hsettles, hfirst, -⟩ := find_settles_iff decode_twins "Main.main():void"
  refine ⟨decode_twins, fun h => ?_, ?_, hfirst 1 (twins_printsAs (by decide))⟩
  · exact absurd (hsettles.mp h 0 1 (twins_printsAs (by decide)) (twins_printsAs (by decide)))
      (by decide)
  · refine (find_settles_iff decode_twins "Main.main").1.mpr fun m m' hm _ => ?_
    have hnone : ∀ k ∈ twinsUnit.code.map (·.1),
        twinsUnit.declarations.signature k ≠ .ok "Main.main" := by
      decide
    exact absurd hm.2 (hnone m hm.1)

/-- Not every name of a unit that was read is settled: the signature of the twins gives the first
of them, and so depends on the order. -/
theorem find_depends_on_order :
    ¬ ∀ bytes issued u name, (LinkUnit.decode bytes issued).1 = .ok u → u.Settles name := by
  intro h
  obtain ⟨hsame, -⟩ := h twins.marshal 0 twinsUnit "Main.main():void" decode_twins
    [(1, some 0), (0, some 0)] (List.Perm.swap _ _ _)
  revert hsame
  decide

end Linkage.LinkUnit
