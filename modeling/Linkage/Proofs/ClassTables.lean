import Linkage.Proofs.Accepted

/-!
# Class tables

What a table of classes has to be like for its hierarchy to be set up, and that setting it up comes
to an end. The search for a class among the superclasses of another one has no bound of its own: on
a cycle it would go round for ever. It is only ever made in a hierarchy without cycles, since every
superclass is looked at before it is set.
-/

namespace Linkage

open Relation (TransGen ReflTransGen)

-- ---------------------------------------------------------------------------
-- Searching without a bound
-- ---------------------------------------------------------------------------

namespace Declarations

/-- Going up from a class until `other` is met or no class is left, and whether it was met. There is
no answer if the way up goes on for ever. -/
inductive Seeks (d : Declarations) (other : ClassId) : Option ClassId → Bool → Prop
  | top : Seeks d other none false
  | found : Seeks d other (some other) true
  | up {c b} : c ≠ other → Seeks d other (d.superOf c) b → Seeks d other (some c) b

section
variable {d : Declarations} {c other : ClassId} {b b' : Bool} {supers : List ClassId}

theorem Seeks.unique {start : Option ClassId} (h : d.Seeks other start b)
    (h' : d.Seeks other start b') : b = b' := by
  induction h with
  | top => cases h' with
    | top => rfl
  | found => cases h' with
    | found => rfl
    | up hne => exact absurd rfl hne
  | up hne _ ih => cases h' with
    | found => exact absurd rfl hne
    | up _ h' => exact ih h'

theorem Lineage.seeks (h : d.Lineage (c :: supers)) :
    d.Seeks other (some c) ((c :: supers).contains other) := by
  induction supers generalizing c with
  | nil =>
    by_cases hc : c = other
    · subst hc
      simpa using Seeks.found
    · cases h with
      | top hnone => simpa [Ne.symm hc] using Seeks.up hc (hnone ▸ .top)
  | cons s supers ih =>
    by_cases hc : c = other
    · subst hc
      simpa using Seeks.found
    · cases h with
      | step hs hl =>
        rw [List.contains_cons, beq_false_of_ne (Ne.symm hc), Bool.false_or]
        exact .up hc (hs ▸ ih hl)

/-- Without cycles the search has an answer, and the bounded one gives it. -/
theorem seeks_iff (hacyclic : ∀ x, ¬ TransGen d.Extends x x) :
    d.Seeks other (some c) b ↔ b = d.isSubclass c other := by
  obtain ⟨supers, hancestry, hl, -⟩ := lineage_ancestry (c := c) fun x _ => hacyclic x
  have hseeks : d.Seeks other (some c) (d.isSubclass c other) := by
    rw [isSubclass, hancestry]
    exact hl.seeks
  refine ⟨fun h => h.unique hseeks, ?_⟩
  rintro rfl
  exact hseeks

/-- On a cycle the search goes round for ever, unless the class is met on the way. -/
theorem not_seeks_of_cycle (hcycle : TransGen d.Extends c c)
    (hother : ¬ ReflTransGen d.Extends c other) : ¬ d.Seeks other (some c) b := by
  intro h
  generalize hstart : some c = start at h
  induction h generalizing c with
  | top => cases hstart
  | found =>
    obtain rfl := Option.some.inj hstart
    exact hother .refl
  | up _ _ ih =>
    obtain rfl := Option.some.inj hstart
    -- the next class is on the cycle as well
    obtain ⟨s, hs, hback⟩ := TransGen.head'_iff.mp hcycle
    exact ih (.tail' hback hs) (fun hup => hother (.head hs hup)) hs.symm

end

end Declarations

-- ---------------------------------------------------------------------------
-- Setting superclasses
-- ---------------------------------------------------------------------------

namespace Image

/-- Setting the superclasses from the row at place `i` on, with a search before each that has no
bound, and what it comes to. -/
inductive Links : Declarations → Nat → List Class → Decode Declarations → Prop
  | done {d i} : Links d i [] (.ok d)
  | root {d i c rest r} : c.super = 0 → Links d (i + 1) rest r → Links d i (c :: rest) r
  | outOfRange {d i c rest} : c.super ≠ 0 → reference? d.classes.size c.super = none →
      Links d i (c :: rest) (.error (.superOutOfRange c.name c.super))
  | cycle {d i c rest s} : c.super ≠ 0 → reference? d.classes.size c.super = some s →
      d.Seeks i (some s) true → Links d i (c :: rest) (.error (.inheritanceCycle c.name))
  | set {d i c rest s r} : c.super ≠ 0 → reference? d.classes.size c.super = some s →
      d.Seeks i (some s) false →
      Links { d with classes := d.classes.setIfInBounds i ⟨c.name, some s⟩ } (i + 1) rest r →
      Links d i (c :: rest) r

inductive Loads (table : List Class) : Decode Declarations → Prop
  | unnamed {reason} : classNames 0 table = .error reason → Loads table (.error reason)
  | linked {named r} : classNames 0 table = .ok named →
      Links { classes := named.toArray } 0 table r → Loads table r

section
variable {d : Declarations} {i : Nat} {rest table : List Class} {r : Decode Declarations}

/-- No search is made in a hierarchy with a cycle, so every one of them ends. -/
theorem links_linkSupers (hacyclic : ∀ x, ¬ TransGen d.Extends x x) :
    Links d i rest (linkSupers d i rest) := by
  fun_induction linkSupers d i rest with
  | case1 => exact .done
  | case2 d i c rest h0 ih => exact .root h0 (ih hacyclic)
  | case3 d i c rest h0 href => exact .outOfRange h0 href
  | case4 d i c rest h0 s href hsub =>
    exact .cycle h0 href ((Declarations.seeks_iff hacyclic).mpr hsub.symm)
  | case5 d i c rest h0 s href hsub classes ih =>
    rw [Bool.not_eq_true] at hsub
    exact .set h0 href ((Declarations.seeks_iff hacyclic).mpr hsub.symm)
      (ih (Declarations.acyclic_set hacyclic hsub c.name))

theorem Links.eq_linkSupers (h : Links d i rest r) (hacyclic : ∀ x, ¬ TransGen d.Extends x x) :
    r = linkSupers d i rest := by
  induction h with
  | done => rfl
  | root h0 _ ih => rw [linkSupers, if_pos h0, ih hacyclic]
  | outOfRange h0 href => rw [linkSupers, if_neg h0, href]
  | cycle h0 href hseeks =>
    have hsub := (Declarations.seeks_iff hacyclic).mp hseeks
    rw [linkSupers, if_neg h0]
    simp only [href, ← hsub, ↓reduceIte]
  | @set _ _ c _ _ _ h0 href hseeks _ ih =>
    have hsub := (Declarations.seeks_iff hacyclic).mp hseeks
    rw [linkSupers, if_neg h0]
    simp only [href, ← hsub, Bool.false_eq_true, ↓reduceIte]
    exact ih (Declarations.acyclic_set hacyclic hsub.symm c.name)

theorem loads_iff : Loads table r ↔ r = decodeClasses table := by
  have hacyclic := acyclic_linkedTo_start table.length table
  cases hnames : classNames 0 table with
  | error reason =>
    have hdecode : decodeClasses table = .error reason := by
      rw [decodeClasses, hnames]
      rfl
    rw [hdecode]
    constructor
    · intro h
      cases h with
      | unnamed hreason => rw [Except.error.inj (hreason.symm.trans hnames)]
      | linked hnamed => simp [hnames] at hnamed
    · rintro rfl
      exact .unnamed hnames
  | ok named =>
    obtain ⟨rfl, -⟩ := classNames_ok hnames
    have hdecode : decodeClasses table = linkSupers (linkedTo table.length [] table) 0 table := by
      rw [decodeClasses, hnames]
      rfl
    rw [hdecode]
    constructor
    · intro h
      cases h with
      | unnamed hreason => simp [hnames] at hreason
      | linked hnamed hlinks =>
        obtain rfl := Except.ok.inj (hnames.symm.trans hnamed)
        exact hlinks.eq_linkSupers hacyclic
    · rintro rfl
      exact .linked hnames (links_linkSupers hacyclic)

-- ---------------------------------------------------------------------------
-- Tables that are accepted
-- ---------------------------------------------------------------------------

/-- A class is as its row says: of that name, and with the superclass that the row refers to, if it
refers to one. References count from one. -/
def Class.Describes (c : Class) (k : ClassDecl) : Prop :=
  k.name = c.name ∧ c.super.toInt = k.super.elim 0 fun s => (s : Int) + 1

theorem inRange_iff {count : Nat} {n : Int64} :
    (n ≠ 0 → ∃ s, reference? count n = some s) ↔ 0 ≤ n.toInt ∧ n.toInt ≤ count := by
  have hzero : n = 0 ↔ n.toInt = 0 := by rw [← Int64.toInt_inj, Int64.toInt_zero]
  simp only [reference?_eq_some, ne_eq, hzero]
  constructor
  · intro h
    by_cases h0 : n.toInt = 0
    · omega
    · obtain ⟨s, hs, hlt⟩ := h h0
      omega
  · rintro ⟨hpos, hle⟩ h0
    exact ⟨n.toInt.toNat - 1, by omega, by omega⟩

theorem describes_toDecl {count : Nat} {c : Class} (h : 0 ≤ c.super.toInt ∧ c.super.toInt ≤ count) :
    c.Describes (c.toDecl count) := by
  refine ⟨rfl, ?_⟩
  cases hs : reference? count c.super with
  | none =>
    by_cases h0 : c.super = 0
    · simp [Class.toDecl, h0, reference?_zero]
    · obtain ⟨s, hs'⟩ := inRange_iff.mpr h h0
      simp [hs] at hs'
  | some s => simpa [Class.toDecl, hs] using (reference?_eq_some.mp hs).1

theorem linkSupers_inRange {d' : Declarations} (h : linkSupers d i rest = .ok d') :
    ∀ c ∈ rest, c.super ≠ 0 → ∃ s, reference? d.classes.size c.super = some s := by
  fun_induction linkSupers d i rest with
  | case1 => simp
  | case2 d i c rest h0 ih =>
    exact List.forall_mem_cons.mpr ⟨fun hne => absurd h0 hne, ih h⟩
  | case3 => cases h
  | case4 => cases h
  | case5 d i c rest h0 s href hsub classes ih =>
    have hrest := ih h
    simp only [classes, Array.size_setIfInBounds] at hrest
    exact List.forall_mem_cons.mpr ⟨fun _ => ⟨s, href⟩, hrest⟩

theorem decodeClasses_inRange (h : decodeClasses table = .ok d) (c : Class) (hc : c ∈ table) :
    0 ≤ c.super.toInt ∧ c.super.toInt ≤ table.length := by
  obtain ⟨named, hnamed, hlink⟩ := bind_ok.mp h
  obtain ⟨rfl, -⟩ := classNames_ok hnamed
  have hrange := linkSupers_inRange hlink c hc
  simp only [List.size_toArray, List.length_map] at hrange
  exact inRange_iff.mp hrange

theorem extends_eq_above (h : decodeClasses table = .ok d) : d.Extends = Above table := by
  obtain ⟨rfl, -⟩ := decodeClasses_ok h
  funext a b
  simp [Declarations.Extends, Declarations.superOf, Above, Class.toDecl, Option.bind_eq_some_iff]

/-- Setting up the classes of a table always ends, with no bound on its searches. It succeeds
exactly if every class has a name, refers to a class of the table or to none, and is not above
itself. Then every class is as its row says, and the classes that it is a subclass of are those
above it in the table and itself. -/
theorem decodeClasses_exact (table : List Class) :
    (∀ r, Loads table r ↔ r = decodeClasses table) ∧
      ((∃ d, decodeClasses table = .ok d) ↔
        (∀ c ∈ table, c.name ≠ "") ∧
          (∀ c ∈ table, 0 ≤ c.super.toInt ∧ c.super.toInt ≤ table.length) ∧
          ∀ i, ¬ TransGen (Above table) i i) ∧
      ∀ d, decodeClasses table = .ok d →
        d.classes.size = table.length ∧
          (∀ (i : Nat) c, table[i]? = some c → ∃ k, d.classes[i]? = some k ∧ c.Describes k) ∧
          ∀ i j, (d.isSubclass i j = true ↔ ReflTransGen (Above table) i j) ∧
            ∀ b, d.Seeks j (some i) b ↔ b = d.isSubclass i j := by
  refine ⟨fun r => loads_iff, ⟨?_, ?_⟩, ?_⟩
  · rintro ⟨d, hd⟩
    obtain ⟨-, hnames, hacyclic⟩ := decodeClasses_ok hd
    exact ⟨hnames, decodeClasses_inRange hd, extends_eq_above hd ▸ hacyclic⟩
  · rintro ⟨hnames, hrange, hacyclic⟩
    exact ⟨_, decodeClasses_eq table hnames (fun c hc => inRange_iff.mpr (hrange c hc)) hacyclic⟩
  · intro d hd
    obtain ⟨hd', -, hacyclic⟩ := decodeClasses_ok hd
    refine ⟨(decodeClasses_size hd).1, fun i c hc => ?_, fun i j => ⟨?_, fun b => ?_⟩⟩
    · refine ⟨c.toDecl table.length, by simp [hd', hc], ?_⟩
      exact describes_toDecl (decodeClasses_inRange hd c (List.mem_of_getElem? hc))
    · rw [Declarations.isSubclass_iff hacyclic, extends_eq_above hd]
    · exact Declarations.seeks_iff hacyclic

/-- A cycle is met at the last of its classes, wherever the table lists them. -/
example : decodeClasses [⟨"Knot", 3⟩, ⟨"Root", 0⟩, ⟨"Rope", 4⟩, ⟨"Loop", 1⟩] =
    .error (.inheritanceCycle "Loop") := by decide

end

end Image

end Linkage
