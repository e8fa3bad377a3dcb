import Linkage.Proofs.Scopes

/-!
# What scopes share

Scopes that are made by updates from each other share their nodes. If every update has a version of
its own, a node is known by its version and its key: all scopes of a history agree on it, and stay
so whatever is made later. An update with the same value gives the same scope. Any other one makes
new nodes on the way to its key and there only; the subtrees beside that way are those of the scope
it was made from.
-/

namespace Linkage

theorem Symbol.compare_self (x : Symbol) : x.compare x = .eq := compare_eq_eq.mpr rfl

namespace Scope

-- ---------------------------------------------------------------------------
-- Nodes and ways
-- ---------------------------------------------------------------------------

structure Node (α : Type) where
  version : Nat
  key : Symbol
  value : α
  left : Scope α
  right : Scope α

inductive Side where
  | left
  | right

section
variable {α : Type}

def Node.address (n : Node α) : Nat × Symbol := (n.version, n.key)

def Node.binding (n : Node α) : Symbol × α := (n.key, n.value)

def nodes : Scope α → List (Node α)
  | .empty => []
  | .node version k value left right =>
    ⟨version, k, value, left, right⟩ :: (left.nodes ++ right.nodes)

def path (key : Symbol) : Scope α → List (Node α)
  | .empty => []
  | .node version k value left right =>
    ⟨version, k, value, left, right⟩ ::
      match k.compare key with
      | .lt => left.path key
      | .gt => right.path key
      | .eq => []

/-- The subtrees beside the way to a key and below its end, each with the side it hangs on. -/
def hanging (key : Symbol) : Scope α → List (Side × Scope α)
  | .empty => []
  | .node _ k _ left right =>
    match k.compare key with
    | .lt => (.right, right) :: left.hanging key
    | .gt => (.left, left) :: right.hanging key
    | .eq => [(.left, left), (.right, right)]

/-- The way to a key and what hangs off it are the whole scope. -/
theorem mem_nodes_iff (key : Symbol) (s : Scope α) (n : Node α) :
    n ∈ s.nodes ↔ n ∈ s.path key ∨ ∃ h ∈ s.hanging key, n ∈ h.2.nodes := by
  induction s with
  | empty => simp [nodes, path, hanging]
  | node version k value left right ihl ihr =>
    rw [nodes, path, hanging, List.mem_cons, List.mem_append, List.mem_cons]
    cases k.compare key with
    | lt =>
      rw [ihl]
      simp only [List.exists_mem_cons_iff, or_assoc, or_comm, or_left_comm]
    | gt =>
      rw [ihr]
      simp only [List.exists_mem_cons_iff, or_assoc, or_left_comm]
    | eq => simp

-- ---------------------------------------------------------------------------
-- Updates that compare the children
-- ---------------------------------------------------------------------------

variable {same : α → α → Bool} {version : Nat} {key : Symbol} {value : α}
  {s s' left right : Scope α}

def Lacks (s : Scope α) (version : Nat) : Prop := ∀ n ∈ s.nodes, n.version ≠ version

theorem lacks_node {n : Nat} {k : Symbol} {old : α} :
    (node n k old left right).Lacks version ↔
      n ≠ version ∧ left.Lacks version ∧ right.Lacks version := by
  simp only [Lacks, nodes, List.forall_mem_cons, List.forall_mem_append]

theorem Lacks.version?_ne (h : s.Lacks version) : s.version? ≠ some version := by
  cases s with
  | empty => simp [version?]
  | node n k old left right => simpa [version?] using (lacks_node.mp h).1

theorem version?_of_update? (h : s.update? same version key value = some s') :
    s'.version? = some version := by
  cases s with
  | empty =>
    obtain rfl := Option.some.inj h
    rfl
  | node n k old left right =>
    rw [update?] at h
    split at h
    · obtain ⟨left', -, rfl⟩ := Option.map_eq_some_iff.mp h
      rfl
    · obtain ⟨right', -, rfl⟩ := Option.map_eq_some_iff.mp h
      rfl
    · split at h
      · cases h
      · obtain rfl := Option.some.inj h
        rfl

/-- A version that a scope lacks tells whether an update changed anything. -/
theorem Lacks.update_cases (h : s.Lacks version) (same : α → α → Bool) (key : Symbol) (value : α) :
    s.update? same version key value = none ∧
        (s.update same version key value).version? = s.version? ∨
      s.update? same version key value = some (s.update same version key value) ∧
        (s.update same version key value).version? ≠ s.version? := by
  unfold update
  cases hup : s.update? same version key value with
  | none => exact .inl ⟨rfl, rfl⟩
  | some s' => exact .inr ⟨rfl, version?_of_update? hup ▸ h.version?_ne.symm⟩

/-- Only the children on the way to the key have to be looked at: a node is kept if its child is the
same one after the update, and copied if it is not. -/
theorem update_node_of_lacks {n : Nat} {k : Symbol} {old : α}
    (h : (node n k old left right).Lacks version) :
    (node n k old left right).update same version key value =
      match k.compare key with
      | .lt =>
        if (left.update same version key value).version? = left.version?
        then node n k old left right
        else node version k old (left.update same version key value) right
      | .gt =>
        if (right.update same version key value).version? = right.version?
        then node n k old left right
        else node version k old left (right.update same version key value)
      | .eq =>
        if same old value then node n k old left right
        else node version k value left right := by
  obtain ⟨-, hleft, hright⟩ := lacks_node.mp h
  rw [update, update?]
  -- no child has the new version before the update, so one that has it after was copied
  cases k.compare key with
  | lt =>
    rcases hleft.update_cases same key value with ⟨hup, hsame⟩ | ⟨hup, hdiff⟩
    · rw [hup, if_pos hsame]
      rfl
    · rw [hup, if_neg hdiff]
      rfl
  | gt =>
    rcases hright.update_cases same key value with ⟨hup, hsame⟩ | ⟨hup, hdiff⟩
    · rw [hup, if_pos hsame]
      rfl
    · rw [hup, if_neg hdiff]
      rfl
  | eq =>
    dsimp only
    split
    · rfl
    · rfl

-- ---------------------------------------------------------------------------
-- Copies
-- ---------------------------------------------------------------------------

/-- A scope with the way to a key copied, down to the node of the key or to a new one. -/
inductive Copied (version : Nat) (key : Symbol) (value : α) : Scope α → Scope α → Prop
  | leaf : Copied version key value .empty (.node version key value .empty .empty)
  | here {n k old left right} : k.compare key = .eq →
      Copied version key value (.node n k old left right) (.node version k value left right)
  | left {n k old left left' right} : k.compare key = .lt → Copied version key value left left' →
      Copied version key value (.node n k old left right) (.node version k old left' right)
  | right {n k old left right right'} : k.compare key = .gt →
      Copied version key value right right' →
      Copied version key value (.node n k old left right) (.node version k old left right')

theorem Copied.version?_eq (h : Copied version key value s s') : s'.version? = some version := by
  cases h <;> rfl

theorem Copied.version?_ne (h : Copied version key value s s') (hs : s.Lacks version) :
    s'.version? ≠ s.version? :=
  h.version?_eq ▸ hs.version?_ne.symm

theorem Lacks.keeps_or_copies (h : s.Lacks version) (same : α → α → Bool) (key : Symbol)
    (value : α) :
    (∃ old, s.lookup key = some old ∧ same old value = true) ∧
        s.update same version key value = s ∨
      (¬ ∃ old, s.lookup key = some old ∧ same old value = true) ∧
        Copied version key value s (s.update same version key value) := by
  induction s with
  | empty => exact .inr ⟨by simp [lookup], .leaf⟩
  | node n k old left right ihl ihr =>
    obtain ⟨-, hleft, hright⟩ := lacks_node.mp h
    rw [update_node_of_lacks h, lookup]
    cases hk : k.compare key with
    | lt =>
      rcases ihl hleft with ⟨hfound, hkept⟩ | ⟨hfound, hcopied⟩
      · exact .inl ⟨hfound, if_pos (by rw [hkept])⟩
      · refine .inr ⟨hfound, ?_⟩
        dsimp only
        rw [if_neg (hcopied.version?_ne hleft)]
        exact .left hk hcopied
    | gt =>
      rcases ihr hright with ⟨hfound, hkept⟩ | ⟨hfound, hcopied⟩
      · exact .inl ⟨hfound, if_pos (by rw [hkept])⟩
      · refine .inr ⟨hfound, ?_⟩
        dsimp only
        rw [if_neg (hcopied.version?_ne hright)]
        exact .right hk hcopied
    | eq =>
      cases hsame : same old value with
      | true => exact .inl ⟨⟨old, rfl, hsame⟩, rfl⟩
      | false => exact .inr ⟨by simp [hsame], .here hk⟩

theorem Copied.path_version (h : Copied version key value s s') :
    ∀ n ∈ s'.path key, n.version = version := by
  induction h with
  | leaf => simp [path, Symbol.compare_self]
  | here hk => simp [path, hk]
  | left hk _ ih => simpa [path, hk] using ih
  | right hk _ ih => simpa [path, hk] using ih

theorem Copied.found (h : Copied version key value s s') (hold : s.lookup key = some old) :
    s'.hanging key = s.hanging key ∧ ∃ way k, k.name = key.name ∧
      (s.path key).map Node.binding = way ++ [(k, old)] ∧
      (s'.path key).map Node.binding = way ++ [(k, value)] := by
  induction h with
  | leaf => cases hold
  | @here n k _ left right hk =>
    simp only [lookup, hk, Option.some.injEq] at hold
    refine ⟨by simp [hanging, hk], [], k, Symbol.compare_eq_eq.mp hk, ?_, ?_⟩
    · simp [path, hk, Node.binding, hold]
    · simp [path, hk, Node.binding]
  | @left n k v left left' right hk _ ih =>
    simp only [lookup, hk] at hold
    obtain ⟨hhanging, way, k', hname, hpath, hpath'⟩ := ih hold
    refine ⟨by simp [hanging, hk, hhanging], (k, v) :: way, k', hname, ?_, ?_⟩
    · simp [path, hk, Node.binding, hpath]
    · simp [path, hk, Node.binding, hpath']
  | @right n k v left right right' hk _ ih =>
    simp only [lookup, hk] at hold
    obtain ⟨hhanging, way, k', hname, hpath, hpath'⟩ := ih hold
    refine ⟨by simp [hanging, hk, hhanging], (k, v) :: way, k', hname, ?_, ?_⟩
    · simp [path, hk, Node.binding, hpath]
    · simp [path, hk, Node.binding, hpath']

theorem Copied.absent (h : Copied version key value s s') (hnone : s.lookup key = none) :
    s'.hanging key = s.hanging key ++ [(.left, .empty), (.right, .empty)] ∧
      (s'.path key).map Node.binding = (s.path key).map Node.binding ++ [(key, value)] := by
  induction h with
  | leaf => simp [path, hanging, Symbol.compare_self, Node.binding]
  | here hk => simp [lookup, hk] at hnone
  | left hk _ ih | right hk _ ih =>
    obtain ⟨hhanging, hpath⟩ := ih (by simpa [lookup, hk] using hnone)
    refine ⟨by simp [hanging, hk, hhanging], ?_⟩
    simp [path, hk, Node.binding, hpath]

theorem Copied.mem_nodes (h : Copied version key value s s') {n : Node α} (hn : n ∈ s'.nodes) :
    n ∈ s'.path key ∨ n ∈ s.nodes := by
  rcases (mem_nodes_iff key s' n).mp hn with hpath | ⟨beside, hbeside, hn⟩
  · exact .inl hpath
  refine .inr ((mem_nodes_iff key s n).mpr (.inr ?_))
  cases hlookup : s.lookup key with
  | some old =>
    rw [(h.found hlookup).1] at hbeside
    exact ⟨beside, hbeside, hn⟩
  | none =>
    rw [(h.absent hlookup).1] at hbeside
    rcases List.mem_append.mp hbeside with hbeside | hbeside
    · exact ⟨beside, hbeside, hn⟩
    · -- nothing hangs off a new leaf
      rcases List.mem_pair.mp hbeside with rfl | rfl
      · cases hn
      · cases hn

theorem Lacks.mem_nodes_update (h : s.Lacks version) {n : Node α}
    (hn : n ∈ (s.update same version key value).nodes) : n.version = version ∨ n ∈ s.nodes := by
  rcases h.keeps_or_copies same key value with ⟨-, hkept⟩ | ⟨-, hcopied⟩
  · exact .inr (hkept ▸ hn)
  · exact (hcopied.mem_nodes hn).imp_left (hcopied.path_version n)

-- ---------------------------------------------------------------------------
-- Histories
-- ---------------------------------------------------------------------------

/-- A version and a key stand for one node, whichever scope it is met in. -/
def Coherent (made : List (Scope α)) : Prop :=
  ∀ s ∈ made, ∀ t ∈ made, ∀ n ∈ s.nodes, ∀ m ∈ t.nodes, n.address = m.address → n = m

/-- The scopes that updates make, from the empty one and from each other. Each update has a version
of its own. -/
def history (same : α → α → Bool) (steps : List (Nat × Symbol × α)) : List (Scope α) :=
  derived (apply same) .empty
    (steps.mapIdx fun version step => (step.1, ⟨version, step.2.1, step.2.2⟩))

theorem name_mem_names {n : Node α} (hn : n ∈ s.nodes) : n.key.name ∈ s.names := by
  induction s with
  | empty => cases hn
  | node v k old left right ihl ihr =>
    rw [names_node, List.mem_append, List.mem_cons]
    rw [nodes, List.mem_cons, List.mem_append] at hn
    rcases hn with rfl | hn | hn
    · exact .inr (.inl rfl)
    · exact .inr (.inr (ihl hn))
    · exact .inl (ihr hn)

theorem Ordered.node_unique (h : s.Ordered) {n m : Node α} (hn : n ∈ s.nodes) (hm : m ∈ s.nodes)
    (hname : n.key.name = m.key.name) : n = m := by
  induction s with
  | empty => cases hn
  | node v k old left right ihl ihr =>
    obtain ⟨hleft, hright, habove, hbelow⟩ := (ordered_node v k old left right).mp h
    rw [nodes, List.mem_cons, List.mem_append] at hn hm
    rcases hn with rfl | hn | hn
    · rcases hm with rfl | hm | hm
      · rfl
      · exact absurd hname (habove _ (name_mem_names hm)).ne
      · exact absurd hname (hbelow _ (name_mem_names hm)).ne'
    · have hgt := habove _ (name_mem_names hn)
      rcases hm with rfl | hm | hm
      · exact absurd hname hgt.ne'
      · exact ihl hleft hn hm
      · exact absurd hname ((hbelow _ (name_mem_names hm)).trans hgt).ne'
    · have hlt := hbelow _ (name_mem_names hn)
      rcases hm with rfl | hm | hm
      · exact absurd hname hlt.ne
      · exact absurd hname (hlt.trans (habove _ (name_mem_names hm))).ne
      · exact ihr hright hn hm

/-- What holds of all scopes made so far, while their versions are below that of the next update. -/
structure Sound (made : List (Scope α)) (version : Nat) : Prop where
  ordered : ∀ s ∈ made, s.Ordered
  below : ∀ s ∈ made, ∀ n ∈ s.nodes, n.version < version
  coherent : Coherent made

theorem Sound.lacks {made : List (Scope α)} (h : Sound made version) (hs : s ∈ made) :
    s.Lacks version :=
  fun n hn => (h.below s hs n hn).ne

theorem Sound.update {made : List (Scope α)} (h : Sound made version) (hs : s ∈ made) :
    Sound (made ++ [s.update same version key value]) (version + 1) := by
  have hnew : (s.update same version key value).Ordered := (h.ordered s hs).update
  -- a node has the new version, or belongs to a scope that was there
  have hcases : ∀ t ∈ made ++ [s.update same version key value], ∀ n ∈ t.nodes,
      n.version = version ∧ n ∈ (s.update same version key value).nodes ∨
        n.version < version ∧ ∃ t ∈ made, n ∈ t.nodes := by
    intro t ht n hn
    rcases List.mem_append.mp ht with ht | ht
    · exact .inr ⟨h.below t ht n hn, t, ht, hn⟩
    · rw [List.mem_singleton.mp ht] at hn
      rcases (h.lacks hs).mem_nodes_update hn with hversion | hn'
      · exact .inl ⟨hversion, hn⟩
      · exact .inr ⟨h.below s hs n hn', s, hs, hn'⟩
  refine ⟨?_, fun t ht n hn => ?_, fun t ht u hu n hn m hm haddress => ?_⟩
  · rw [List.forall_mem_append, List.forall_mem_singleton]
    exact ⟨h.ordered, hnew⟩
  · rcases hcases t ht n hn with ⟨hversion, -⟩ | ⟨hlt, -⟩
    · exact hversion ▸ Nat.lt_succ_self _
    · exact Nat.lt_succ_of_lt hlt
  · obtain ⟨hversion, hkey⟩ := Prod.mk.inj haddress
    rcases hcases t ht n hn with ⟨hnv, hn⟩ | ⟨hnv, t', ht', hn⟩
    · rcases hcases u hu m hm with ⟨-, hm⟩ | ⟨hmv, -⟩
      · exact hnew.node_unique hn hm (congrArg Symbol.name hkey)
      · omega
    · rcases hcases u hu m hm with ⟨hmv, -⟩ | ⟨-, u', hu', hm⟩
      · omega
      · exact h.coherent t' ht' u' hu' n hn m hm haddress

theorem history_append (same : α → α → Bool) (steps : List (Nat × Symbol × α))
    (step : Nat × Symbol × α) :
    history same (steps ++ [step]) =
      derive (apply same) (history same steps) (step.1, ⟨steps.length, step.2.1, step.2.2⟩) := by
  rw [history, List.mapIdx_concat, derived, List.foldl_append]
  rfl

theorem sound_history (same : α → α → Bool) (steps : List (Nat × Symbol × α)) :
    Sound (history same steps) steps.length := by
  induction steps using List.reverseRecOn with
  | nil =>
    have hempty : history same [] = [.empty] := rfl
    rw [hempty]
    constructor
    · simp [Ordered, names, toList]
    · simp [nodes]
    · simp [Coherent, nodes]
  | append_singleton steps step ih =>
    rw [history_append, List.length_append, List.length_singleton, derive]
    split
    · rename_i s hs
      exact ih.update (List.mem_of_getElem? hs)
    · exact ⟨ih.ordered, fun s hs n hn => Nat.lt_succ_of_lt (ih.below s hs n hn), ih.coherent⟩

structure Rebuilds (made : List (Scope α)) (key : Symbol) (value : α) (s s' : Scope α) : Prop where
  /-- The new nodes are those on the way to the key. -/
  new : ∀ n ∈ s'.nodes,
    n ∈ s'.path key ↔ ∀ t ∈ made, ∀ m ∈ t.nodes, m.address ≠ n.address
  /-- They are copies of those that were on the way, the last one with the value. -/
  found : ∀ old, s.lookup key = some old →
    s'.hanging key = s.hanging key ∧ ∃ way k, k.name = key.name ∧
      (s.path key).map Node.binding = way ++ [(k, old)] ∧
      (s'.path key).map Node.binding = way ++ [(k, value)]
  /-- If the key was not there, a leaf is added to the copies. -/
  absent : s.lookup key = none →
    s'.hanging key = s.hanging key ++ [(.left, .empty), (.right, .empty)] ∧
      (s'.path key).map Node.binding = (s.path key).map Node.binding ++ [(key, value)]

theorem Copied.rebuilds {made : List (Scope α)} (h : Copied version key value s s')
    (hmade : Sound made version) (hs : s ∈ made) : Rebuilds made key value s s' where
  new n hn := by
    constructor
    · intro hpath t ht m hm haddress
      have hversion := (Prod.mk.inj haddress).1
      have := hmade.below t ht m hm
      rw [h.path_version n hpath] at hversion
      omega
    · intro hnew
      rcases h.mem_nodes hn with hpath | hold
      · exact hpath
      · exact absurd rfl (hnew s hs n hold)
  found old := h.found
  absent := h.absent

/-- Scopes are made from each other by updates with versions of their own. An update of one of them
leaves all of them as they are, and nodes of one version and key are still the same node. It gives
the very scope it was made from exactly if that scope has the same value for the key. If not, its
new nodes are the copies of those on the way to the key, with one more if the key was not there, and
the subtrees beside that way are the same in both. -/
theorem update_shares (same : α → α → Bool) (steps : List (Nat × Symbol × α)) (i : Nat)
    (s : Scope α) (hs : (history same steps)[i]? = some s) (key : Symbol) (value : α) :
    ∃ s', s.update same steps.length key value = s' ∧
      history same (steps ++ [(i, key, value)]) = history same steps ++ [s'] ∧
      Coherent (history same steps ++ [s']) ∧
      (s'.version? = s.version? ↔ ∃ old, s.lookup key = some old ∧ same old value = true) ∧
      (s'.version? = s.version? → s' = s) ∧
      (s'.version? ≠ s.version? → Rebuilds (history same steps) key value s s') := by
  have hsound := sound_history same steps
  have hmem := List.mem_of_getElem? hs
  refine ⟨_, rfl, ?_, (hsound.update hmem).coherent, ?_⟩
  · rw [history_append, derive, hs]
    rfl
  · rcases (hsound.lacks hmem).keeps_or_copies same key value with
      ⟨hfound, hkept⟩ | ⟨hfound, hcopied⟩
    · rw [hkept]
      exact ⟨iff_of_true rfl hfound, fun _ => rfl, fun hdiff => absurd rfl hdiff⟩
    · have hdiff := hcopied.version?_ne (hsound.lacks hmem)
      exact ⟨iff_of_false hdiff hfound, fun heq => absurd heq hdiff,
        fun _ => hcopied.rebuilds hsound hmem⟩

end

def letters : List (Nat × Symbol × Nat) :=
  [(0, ⟨"m", 0, 0, 0⟩, 0), (1, ⟨"z", 1, 0, 0⟩, 1), (2, ⟨"a", 2, 0, 0⟩, 2)]

/-- A root with a smaller and a greater name below it. The greater one is of an earlier version. -/
def lettersScope : Scope Nat :=
  .node 2 ⟨"m", 0, 0, 0⟩ 0 (.node 1 ⟨"z", 1, 0, 0⟩ 1 .empty .empty)
    (.node 2 ⟨"a", 2, 0, 0⟩ 2 .empty .empty)

/-- A name between the root and the smaller one leaves the greater one shared, and a value that is
there already gives the same scope. -/
theorem update_shares_letters :
    (history (· == ·) letters)[3]? = some lettersScope ∧
      (∃ s', lettersScope.update (· == ·) 3 ⟨"b", 3, 0, 0⟩ 99 = s' ∧
        s'.version? ≠ lettersScope.version? ∧
        s'.hanging ⟨"b", 3, 0, 0⟩ = [(.left, .node 1 ⟨"z", 1, 0, 0⟩ 1 .empty .empty),
          (.right, .empty), (.left, .empty), (.right, .empty)]) ∧
      lettersScope.update (· == ·) 3 ⟨"z", 1, 0, 0⟩ 1 = lettersScope := by
  have hs : (history (· == ·) letters)[3]? = some lettersScope := rfl
  refine ⟨hs, ?_, ?_⟩
  · obtain ⟨s', hs', -, -, hiff, -, hrebuilds⟩ :=
      update_shares (· == ·) letters 3 lettersScope hs ⟨"b", 3, 0, 0⟩ 99
    have hdiff : s'.version? ≠ lettersScope.version? := by
      rw [Ne, hiff]
      rintro ⟨old, hold, -⟩
      cases hold
    exact ⟨s', hs', hdiff, ((hrebuilds hdiff).absent rfl).1⟩
  · obtain ⟨s', hs', -, -, hiff, hsame, -⟩ :=
      update_shares (· == ·) letters 3 lettersScope hs ⟨"z", 1, 0, 0⟩ 1
    exact hs'.trans (hsame (hiff.mpr ⟨1, rfl, rfl⟩))

end Scope

end Linkage
