import Linkage.Proofs.Commands
import Linkage.Proofs.Paths
import Mathlib.Data.List.Induction

/-!
# The nearest manifest

Looking for a manifest goes up from a directory until one is found, or none is at the root. This
always comes to an end, and what it ends with is the longest of the paths above the directory that
leads to a manifest. Nothing further up is looked at, so a manifest that cannot be used is an error.
Only one that is not even found, because its path is too long, is passed over.
-/

namespace Linkage

open Linkage.Path (rooted IsName upwards)

-- ---------------------------------------------------------------------------
-- Going up
-- ---------------------------------------------------------------------------

/-- Goes up from a directory to the first one with a property. There is no bound on its steps; it
ends where going up leads nowhere else. -/
inductive Path.Seeks (has : String → Bool) : String → Option String → Prop
  | found {path} : has path = true → Seeks has path (some path)
  | root {path} : has path = false → dir path = path → Seeks has path none
  | up {path r} : has path = false → dir path ≠ path → Seeks has (dir path) r → Seeks has path r

section
variable {has : String → Bool} {names : List (List Char)}

theorem Path.Seeks.unique {r r' : Option String} (h : Seeks has path r) (h' : Seeks has path r') :
    r = r' := by
  induction h with
  | found hpath =>
    cases h' with
    | found => rfl
    | root hnot | up hnot => simp [hpath] at hnot
  | root hnot hroot =>
    cases h' with
    | found hpath => simp [hnot] at hpath
    | root => rfl
    | up _ hup => exact absurd hroot hup
  | up hnot hup _ ih =>
    cases h' with
    | found hpath => simp [hnot] at hpath
    | root _ hroot => exact absurd hroot hup
    | up _ _ h' => exact ih h'

/-- The search comes to the first of the directories from a clean path upwards. -/
theorem Path.seeks_find? (h : ∀ name ∈ names, IsName name) :
    Seeks has (rooted names) ((upwards names).find? has) := by
  induction names using List.reverseRecOn with
  | nil =>
    cases hroot : has (rooted []) with
    | false =>
      have hnone : (upwards []).find? has = none := by simp [upwards, hroot]
      exact hnone ▸ .root hroot dir_root
    | true =>
      have hsome : (upwards []).find? has = some (rooted []) := by simp [upwards, hroot]
      exact hsome ▸ .found hroot
  | append_singleton names name ih =>
    obtain ⟨hnames, hname⟩ := List.forall_mem_append.mp h
    rw [upwards_concat, List.find?_cons]
    cases hpath : has (rooted (names ++ [name])) with
    | true => exact .found hpath
    | false =>
      refine .up hpath (dir_rooted_ne h) ?_
      rw [dir_rooted hnames (hname name (by simp))]
      exact ih hnames

theorem find?_reverse_range (p : Nat → Bool) (n : Nat) :
    (∃ k < n, p k = true ∧ (∀ j, k < j → j < n → p j = false) ∧
      (List.range n).reverse.find? p = some k) ∨
    ((∀ k < n, p k = false) ∧ (List.range n).reverse.find? p = none) := by
  induction n with
  | zero => exact .inr ⟨by simp, rfl⟩
  | succ n ih =>
    rw [List.range_succ, List.reverse_append, List.reverse_singleton, List.singleton_append,
      List.find?_cons]
    cases hn : p n with
    | true => exact .inl ⟨n, by omega, hn, by omega, rfl⟩
    | false =>
      rcases ih with ⟨k, hk, hp, hlast, hfind⟩ | ⟨hnone, hfind⟩
      · refine .inl ⟨k, by omega, hp, fun j hkj hj => ?_, hfind⟩
        rcases Nat.lt_succ_iff_lt_or_eq.mp hj with hj | rfl
        · exact hlast j hkj hj
        · exact hn
      · refine .inr ⟨fun k hk => ?_, hfind⟩
        rcases Nat.lt_succ_iff_lt_or_eq.mp hk with hk | rfl
        · exact hnone k hk
        · exact hn

theorem Path.find?_upwards (has : String → Bool) (names : List (List Char)) :
    (∃ k ≤ names.length, has (rooted (names.take k)) = true ∧
      (∀ j, k < j → j ≤ names.length → has (rooted (names.take j)) = false) ∧
      (upwards names).find? has = some (rooted (names.take k))) ∨
    ((∀ k ≤ names.length, has (rooted (names.take k)) = false) ∧
      (upwards names).find? has = none) := by
  rw [upwards, List.find?_map]
  rcases find?_reverse_range (has ∘ fun k => rooted (names.take k)) (names.length + 1) with
    ⟨k, hk, hhas, hlast, hfind⟩ | ⟨hnone, hfind⟩
  · exact .inl ⟨k, by omega, hhas, fun j hkj hj => hlast j hkj (by omega), by rw [hfind]; rfl⟩
  · exact .inr ⟨fun k hk => hnone k (by omega), by rw [hfind]; rfl⟩

end

-- ---------------------------------------------------------------------------
-- Entries of directories
-- ---------------------------------------------------------------------------

namespace Disk

/-- The directories on the way are there, and then an entry of a name. -/
structure HasEntry (d : Disk) (dir : Location) (name : String) : Prop where
  directories : ∀ k ≤ dir.length, d.IsDirectory (dir.take k)
  entry : ∃ n, d.node? (dir ++ [name]) = some n

/-- A path that files may have: it has no zero byte, and neither it nor a name on it is too long. -/
structure Allowed (path : String) : Prop where
  chars : Char.ofNat 0 ∉ path.toList
  length : path.utf8ByteSize < pathLimit
  names : ∀ name ∈ names path, name.utf8ByteSize < nameLimit

section
variable {d : Disk} {at_ next dir : Location} {name path : String} {parts : List (List Char)}

theorem step_name (h : IsName name.toList) : d.step at_ name = .ok next ↔
    next = at_ ++ [name] ∧ d.IsDirectory at_ ∧ name.utf8ByteSize < nameLimit ∧
      ∃ n, d.node? (at_ ++ [name]) = some n := by
  have hnonempty : name ≠ "" := fun heq => h.nonempty (by simp [heq])
  have hhere : name ≠ "." := fun heq => h.notHere (by simp [heq])
  have hup : name ≠ ".." := fun heq => h.notUp (by simp [heq])
  rw [step, IsDirectory]
  cases hnode : d.node? at_ with
  | none => simp
  | some node =>
    cases node with
    | file bytes => simp
    | directory =>
      simp only [hnonempty, hhere, hup, or_self, ↓reduceIte, true_and]
      rcases Nat.lt_or_ge name.utf8ByteSize nameLimit with hshort | hlong
      · cases hentry : d.node? (at_ ++ [name]) with
        | none => simp [hshort, Nat.not_le.mpr hshort]
        | some n => simp [hshort, Nat.not_le.mpr hshort, eq_comm]
      · simp [hlong, Nat.not_lt.mpr hlong]

theorem follow_name (h : IsName name.toList) (rest : List String) :
    (∃ l, d.follow at_ (name :: rest) = .ok l) ↔
      (d.IsDirectory at_ ∧ name.utf8ByteSize < nameLimit ∧
        ∃ n, d.node? (at_ ++ [name]) = some n) ∧
      ∃ l, d.follow (at_ ++ [name]) rest = .ok l := by
  rw [follow]
  cases hstep : d.step at_ name with
  | error problem =>
    simp only [reduceCtorEq, exists_false, false_iff]
    rintro ⟨hthere, -⟩
    simp [(step_name h).mpr ⟨rfl, hthere⟩] at hstep
  | ok next =>
    obtain ⟨rfl, hthere⟩ := (step_name h).mp hstep
    exact (and_iff_right hthere).symm

theorem follow_entry (h : ∀ x ∈ dir ++ [name], IsName x.toList) :
    (∃ l, d.follow at_ (dir ++ [name]) = .ok l) ↔
      (∀ k ≤ dir.length, d.IsDirectory (at_ ++ dir.take k)) ∧
      (∃ n, d.node? (at_ ++ dir ++ [name]) = some n) ∧
      ∀ x ∈ dir ++ [name], x.utf8ByteSize < nameLimit := by
  induction dir generalizing at_ with
  | nil =>
    rw [List.nil_append, follow_name (h name (by simp))]
    simp [follow, and_comm]
  | cons first dir ih =>
    obtain ⟨hfirst, hrest⟩ := List.forall_mem_cons.mp h
    rw [List.cons_append, follow_name hfirst, ih hrest, List.forall_mem_cons]
    constructor
    · rintro ⟨⟨hdir, hshort, -⟩, hdirs, hentry, hshorts⟩
      refine ⟨fun k hk => ?_, by simpa using hentry, hshort, hshorts⟩
      cases k with
      | zero => simpa using hdir
      | succ k => simpa using hdirs k (Nat.le_of_succ_le_succ hk)
    · rintro ⟨hdirs, hentry, hshort, hshorts⟩
      have hdirs' : ∀ k ≤ dir.length, d.IsDirectory (at_ ++ [first] ++ dir.take k) :=
        fun k hk => by simpa using hdirs (k + 1) (Nat.succ_le_succ hk)
      have hdir : d.IsDirectory at_ := by simpa using hdirs 0 (Nat.zero_le _)
      have hnext : d.IsDirectory (at_ ++ [first]) := by simpa using hdirs' 0 (Nat.zero_le _)
      exact ⟨⟨hdir, hshort, _, hnext⟩, hdirs', by simpa using hentry, hshorts⟩

theorem present_iff : d.present path = true ↔
    pathProblem? path = none ∧ ∃ l, d.follow (d.origin path) (names path) = .ok l := by
  rw [present, locate]
  cases pathProblem? path with
  | some problem => simp [Except.toOption]
  | none => cases d.follow (d.origin path) (names path) <;> simp [Except.toOption]

theorem pathProblem?_eq_none : pathProblem? path = none ↔
    path ≠ "" ∧ Char.ofNat 0 ∉ path.toList ∧ path.utf8ByteSize < pathLimit := by
  unfold pathProblem?
  split_ifs with hempty hzero hlong <;> simp_all

theorem cwdPath_eq (d : Disk) : d.cwdPath = rooted (d.cwd.map String.toList) := by
  simp [cwdPath, rooted, Path.joined, ← String.toList_inj, String.toList_intercalate]

theorem length_le_utf8ByteSize (cs : List Char) : cs.length ≤ (String.ofList cs).utf8ByteSize := by
  induction cs with
  | nil => exact Nat.zero_le _
  | cons c cs ih =>
    have hpos : 0 < c.utf8Size := Char.utf8Size_pos c
    rw [← List.singleton_append, String.ofList_append, String.utf8ByteSize_append,
      ← String.singleton_eq_ofList, String.utf8ByteSize_singleton, List.length_append,
      List.length_singleton]
    omega

theorem names_rooted (hne : parts ≠ []) (h : ∀ part ∈ parts, IsName part) :
    names (rooted parts) = "" :: parts.map String.ofList := by
  rw [names, rooted, String.toList_ofList, Path.parts, if_pos rfl,
    Path.parts_joined hne fun part hpart => (h part hpart).noSlash]
  rfl

/-- There is something at a clean path if its last name is an entry of a directory. -/
theorem present_rooted {part : List Char} (h : ∀ x ∈ parts ++ [part], IsName x) :
    d.present (rooted (parts ++ [part])) = true ↔
      d.HasEntry (parts.map String.ofList) (String.ofList part) ∧
        Allowed (rooted (parts ++ [part])) := by
  have hne : parts ++ [part] ≠ [] := by simp
  have horigin : d.origin (rooted (parts ++ [part])) = [] := by
    simp [origin, Path.isAbsolute, rooted]
  have hentries : ∀ x ∈ parts.map String.ofList ++ [String.ofList part], IsName x.toList := by
    intro x hx
    rw [← List.map_singleton, ← List.map_append] at hx
    obtain ⟨y, hy, rfl⟩ := List.mem_map.mp hx
    simpa using h y hy
  have hroot : d.step [] "" = .ok [] := by simp [step, node?]
  rw [present_iff, horigin, names_rooted hne h, follow, hroot, List.map_append, List.map_singleton]
  simp only
  rw [follow_entry hentries, pathProblem?_eq_none]
  constructor
  · rintro ⟨⟨-, hchars, hlength⟩, hdirs, hentry, hshort⟩
    refine ⟨⟨hdirs, hentry⟩, hchars, hlength, ?_⟩
    rw [names_rooted hne h, List.map_append, List.map_singleton]
    exact List.forall_mem_cons.mpr ⟨by decide, hshort⟩
  · rintro ⟨⟨hdirs, hentry⟩, hchars, hlength, hshort⟩
    rw [names_rooted hne h, List.map_append, List.map_singleton] at hshort
    exact ⟨⟨by simp [rooted], hchars, hlength⟩, hdirs, hentry, (List.forall_mem_cons.mp hshort).2⟩

end

end Disk

namespace Manifest

variable {σ : Type} [FileAccess (StateM σ)]

/-- Whether anything is found in a directory under the name of manifests. -/
def hasManifest (s : σ) (dir : String) : Bool :=
  ((FileAccess.present (Path.join dir fileName) : StateM σ Bool).run s).1

theorem run_loadFirst (fs : FileSystem σ) (s : σ) (dirs : List String) :
    (loadFirst dirs : StateM σ _).run s =
      ((dirs.find? (hasManifest s)).elim (.ok none) fun dir =>
        ((load dir : StateM σ _).run s).1.map some, s) := by
  induction dirs with
  | nil => rfl
  | cons dir dirs ih =>
    have hpresent : (FileAccess.present (Path.join dir fileName) : StateM σ Bool).run s =
      (hasManifest s dir, s) := ReadOnly.run (fs.present _) s
    rw [loadFirst, StateT.run_bind, hpresent, List.find?_cons]
    cases hdir : hasManifest s dir with
    | false => exact ih
    | true =>
      show (load dir >>= fun r => pure (r.map some) : StateM σ _).run s = _
      rw [StateT.run_bind, (fs.readOnly_load dir).run s]
      rfl

theorem run_findAndLoad (fs : FileSystem σ) (s : σ) {names : List (List Char)}
    (hnames : ∀ name ∈ names, IsName name)
    (hstart : Path.absolute ((FileAccess.workingDirectory : StateM σ String).run s).1 start =
      rooted names) :
    (findAndLoad start : StateM σ _).run s =
      (((upwards names).find? (hasManifest s)).elim (.ok none) fun dir =>
        ((load dir : StateM σ _).run s).1.map some, s) := by
  rw [findAndLoad, StateT.run_bind, ReadOnly.run fs.workingDirectory s]
  show (loadFirst (Path.ancestors (Path.absolute _ start)) : StateM σ _).run s = _
  rw [hstart, Path.ancestors_rooted hnames, run_loadFirst fs]

theorem hasManifest_disk (d : Disk) {names : List (List Char)} (h : ∀ name ∈ names, IsName name) :
    hasManifest d (rooted names) = true ↔ d.HasEntry (names.map String.ofList) fileName ∧
      Disk.Allowed (rooted (names ++ [fileName.toList])) := by
  have hname : IsName fileName.toList := by decide
  have hjoin : Path.join (rooted names) fileName = rooted (names ++ [fileName.toList]) := by
    rw [← Path.join_rooted h hname, String.ofList_toList]
  have hall : ∀ x ∈ names ++ [fileName.toList], IsName x :=
    List.forall_mem_append.mpr ⟨h, List.forall_mem_singleton.mpr hname⟩
  show d.present (Path.join (rooted names) fileName) = true ↔ _
  rw [hjoin, Disk.present_rooted hall, String.ofList_toList]

theorem exists_load_error {d : Disk} {path : String} (h : hasManifest d path = false) :
    ∃ e, ((load path : StateM Disk _).run d).1 = .error e := by
  have hlocate : (d.locate (Path.join path fileName)).toOption.isSome = false := h
  cases hl : d.locate (Path.join path fileName) with
  | ok at_ => simp [hl, Except.toOption] at hlocate
  | error problem =>
    have hread : (FileAccess.read (Path.join path fileName) : StateM Disk _).run d =
        (.error (.opening (Path.join path fileName) problem), d) := by
      show (d.read (Path.join path fileName), d) = _
      rw [Disk.read, hl]
    refine ⟨.unreadable (Path.join path fileName) (.opening (Path.join path fileName) problem), ?_⟩
    rw [load, StateT.run_bind, hread]
    rfl

/-- Looking for a manifest comes to an end, on every file system and wherever it starts. If one is
found in some of the directories from there upwards, the result is what reading the one in the
longest of their paths gives, be it an error; otherwise it is that there is none. Nothing is
changed. On a disk an entry with the name of manifests is found unless its path is one that files
may not have. -/
theorem findAndLoad_nearest (fs : FileSystem σ) (s : σ) (start : String)
    (hcwd : Path.isAbsolute ((FileAccess.workingDirectory : StateM σ String).run s).1 = true) :
    (∃ names, (∀ name ∈ names, IsName name) ∧
      Path.absolute ((FileAccess.workingDirectory : StateM σ String).run s).1 start =
        rooted names ∧
      ((∃ k ≤ names.length, hasManifest s (rooted (names.take k)) = true ∧
          (∀ j, k < j → j ≤ names.length → hasManifest s (rooted (names.take j)) = false) ∧
          (∀ r, Path.Seeks (hasManifest s) (rooted names) r ↔ r = some (rooted (names.take k))) ∧
          (findAndLoad start : StateM σ _).run s =
            (((load (rooted (names.take k)) : StateM σ _).run s).1.map some, s)) ∨
        ((∀ k ≤ names.length, hasManifest s (rooted (names.take k)) = false) ∧
          (∀ r, Path.Seeks (hasManifest s) (rooted names) r ↔ r = none) ∧
          (findAndLoad start : StateM σ _).run s = (.ok none, s)))) ∧
    ∀ (d : Disk) (names : List (List Char)), (∀ name ∈ names, IsName name) →
      (hasManifest d (rooted names) = true ↔ d.HasEntry (names.map String.ofList) fileName ∧
        Disk.Allowed (rooted (names ++ [fileName.toList]))) := by
  refine ⟨?_, fun d names => hasManifest_disk d⟩
  obtain ⟨names, hnames, hstart⟩ := Path.exists_absolute hcwd start
  refine ⟨names, hnames, hstart, ?_⟩
  have hrun := run_findAndLoad fs s hnames hstart
  have hseeks : Path.Seeks (hasManifest s) (rooted names) ((upwards names).find? (hasManifest s)) :=
    Path.seeks_find? hnames
  have hunique : ∀ r, Path.Seeks (hasManifest s) (rooted names) r ↔
      r = (upwards names).find? (hasManifest s) :=
    fun r => ⟨fun h => h.unique hseeks, fun h => h ▸ hseeks⟩
  rcases Path.find?_upwards (hasManifest s) names with ⟨k, hk, hhas, hlast, hfind⟩ | ⟨hnone, hfind⟩
  · rw [hfind] at hrun hunique
    exact .inl ⟨k, hk, hhas, hlast, hunique, hrun⟩
  · rw [hfind] at hrun hunique
    exact .inr ⟨hnone, hunique, hrun⟩

/-- A directory with a manifest, and below it one where a directory has the name of manifests. -/
def workshop : Disk where
  nodes := [(["home"], .directory), (["home", "tabby.toml"], .file []),
    (["home", "app"], .directory), (["home", "app", "tabby.toml"], .directory),
    (["home", "app", "src"], .directory)]
  cwd := ["home", "app"]

def workshopSource : List (List Char) := ["home".toList, "app".toList, "src".toList]

theorem findAndLoad_nearest_workshop :
    Path.isAbsolute workshop.cwdPath = true ∧ hasManifest workshop "/home" = true ∧
      (findAndLoad "./src" : StateM Disk _).run workshop =
        (.error (.unreadable "/home/app/tabby.toml"
          (.reading "/home/app/tabby.toml" .isDirectory)), workshop) := by
  have hcwd : Path.isAbsolute workshop.cwdPath = true := by decide
  obtain ⟨⟨names, hnames, hstart, hcases⟩, -⟩ :=
    findAndLoad_nearest Disk.fileSystem workshop "./src" hcwd
  have hsource : Path.absolute workshop.cwdPath "./src" = rooted workshopSource := by decide
  obtain rfl := Path.rooted_inj (by decide) hnames (hsource.symm.trans hstart)
  have happ : hasManifest workshop (rooted (workshopSource.take 2)) = true := by decide
  have hsrc : hasManifest workshop (rooted (workshopSource.take 3)) = false := by decide
  refine ⟨hcwd, by decide, ?_⟩
  rcases hcases with ⟨k, hk, hhas, hlast, -, hrun⟩ | ⟨hnone, -⟩
  · -- the last directory has none, and nothing above the one before it is looked at
    obtain rfl : k = 2 := by
      have hle : k ≤ 3 := hk
      have hthree : k ≠ 3 := by
        rintro rfl
        simp [hsrc] at hhas
      have hge : ¬ k < 2 := fun hlt => by simp [hlast 2 hlt (by decide)] at happ
      omega
    rw [hrun]
    rfl
  · simp [hnone 2 (by decide)] at happ

-- ---------------------------------------------------------------------------
-- An entry that is not found
-- ---------------------------------------------------------------------------

def burrow : List Char := List.replicate 226 'd'

def burrows (k : Nat) : Location := List.replicate k (String.ofList burrow)

/-- Eighteen directories, one in the other, with a manifest in the last, which is too far down for a
path to lead to it. Another manifest is at the root. -/
def buried : Disk where
  nodes := ([fileName], .file []) :: (burrows 18 ++ [fileName], .file []) ::
    (List.range 18).map fun k => (burrows (k + 1), .directory)
  cwd := burrows 18

section
variable {k : Nat}

theorem isName_of_mem_burrows (name : List Char) (h : name ∈ List.replicate k burrow) :
    IsName name := by
  rw [List.eq_of_mem_replicate h]
  decide

theorem fileName_notMem_burrows (k : Nat) : fileName ∉ burrows k := by
  intro h
  have hlength := congrArg String.length (List.eq_of_mem_replicate h)
  rw [String.length_ofList, burrow, List.length_replicate] at hlength
  cases hlength

theorem node?_burrows (hk : k < 18) : buried.node? (burrows (k + 1)) = some .directory := by
  have hfirst : (burrows (k + 1) == [fileName]) = false := by
    refine beq_false_of_ne fun h => fileName_notMem_burrows (k + 1) ?_
    simp [h]
  have hsecond : (burrows (k + 1) == burrows 18 ++ [fileName]) = false := by
    refine beq_false_of_ne fun h => fileName_notMem_burrows (k + 1) ?_
    simp [h]
  have hsome : (((List.range 18).map fun k => (burrows (k + 1), Node.directory)).lookup
      (burrows (k + 1))).isSome = true := by
    rw [List.lookup_isSome_iff]
    simpa using ⟨k, hk, rfl⟩
  obtain ⟨node, hnode⟩ := Option.isSome_iff_exists.mp hsome
  obtain ⟨before, after, hnodes, -⟩ := List.lookup_eq_some_iff.mp hnode
  have hmem : (burrows (k + 1), node) ∈
      (List.range 18).map fun k => (burrows (k + 1), Node.directory) := by simp [hnodes]
  obtain ⟨j, -, hj⟩ := List.mem_map.mp hmem
  obtain rfl := (Prod.mk.inj hj).2
  have hne : burrows (k + 1) ≠ [] := by simp [burrows]
  simp only [Disk.node?, if_neg hne, buried, List.lookup_cons, hfirst, hsecond, hnode]

theorem node?_burrows_fileName (hpos : 0 < k) (hk : k < 18) :
    buried.node? (burrows k ++ [fileName]) = none := by
  have hne : burrows k ++ [fileName] ≠ [] := by simp
  rw [Disk.node?, if_neg hne, List.lookup_eq_none_iff]
  intro entry hentry
  rw [bne_iff_ne]
  intro heq
  have hlength := congrArg List.length heq
  rw [List.length_append, burrows, List.length_replicate, List.length_singleton] at hlength
  rw [buried, List.mem_cons, List.mem_cons, List.mem_map] at hentry
  rcases hentry with rfl | rfl | ⟨j, -, rfl⟩
  · simp at hlength
    omega
  · simp [burrows] at hlength
    omega
  · have hmem : fileName ∈ burrows k ++ [fileName] := by simp
    rw [heq] at hmem
    exact fileName_notMem_burrows (j + 1) hmem

theorem hasEntry_buried : buried.HasEntry buried.cwd fileName := by
  refine ⟨fun k hk => ?_, .file [], ?_⟩
  · have hk : k ≤ 18 := by simpa [buried, burrows] using hk
    have htake : buried.cwd.take k = burrows k := by
      show (List.replicate 18 _).take k = List.replicate k _
      rw [List.take_replicate, Nat.min_eq_left hk]
    rw [htake]
    cases k with
    | zero => rfl
    | succ k => exact node?_burrows hk
  · have hne : burrows 18 ++ [fileName] ≠ [] := by simp
    have hfirst : (burrows 18 ++ [fileName] == [fileName]) = false := by
      refine beq_false_of_ne fun h => ?_
      simp [burrows] at h
    simp only [Disk.node?, buried, if_neg hne, List.lookup_cons, hfirst, beq_self_eq_true]

theorem hasManifest_buried (hk : k ≤ 18) :
    hasManifest buried (rooted (List.replicate k burrow)) = true ↔ k = 0 := by
  have hnames := isName_of_mem_burrows (k := k)
  have hburrows : (List.replicate k burrow).map String.ofList = burrows k := by simp [burrows]
  rw [hasManifest_disk buried hnames, hburrows]
  constructor
  · rintro ⟨⟨-, node, hentry⟩, hallowed⟩
    by_contra hpos
    rcases Nat.lt_or_eq_of_le hk with hlt | rfl
    · simp [node?_burrows_fileName (Nat.pos_of_ne_zero hpos) hlt] at hentry
    · have hlength : ('/' :: Path.joined (List.replicate 18 burrow ++ [fileName.toList])).length =
          4097 := by decide +kernel
      have hle := Disk.length_le_utf8ByteSize
        ('/' :: Path.joined (List.replicate 18 burrow ++ [fileName.toList]))
      rw [hlength] at hle
      exact absurd (Nat.lt_of_le_of_lt hle hallowed.length) (by decide)
  · rintro rfl
    exact (hasManifest_disk buried hnames).mp (by decide)

end

/-- An entry with the name of manifests does not end the search if the path to it is too long: it
cannot be loaded, and the manifest further up is. -/
theorem findAndLoad_passes_over :
    Path.isAbsolute buried.cwdPath = true ∧ buried.HasEntry buried.cwd fileName ∧
      (∃ e, ((load buried.cwdPath : StateM Disk _).run buried).1 = .error e) ∧
      (findAndLoad "." : StateM Disk _).run buried = (.ok (some { dir := "/" }), buried) := by
  have hnames := isName_of_mem_burrows (k := 18)
  have hcwd : buried.cwdPath = rooted (List.replicate 18 burrow) := by
    rw [Disk.cwdPath_eq]
    simp [buried, burrows]
  have habsolute : Path.isAbsolute buried.cwdPath = true := by
    rw [hcwd]
    simp [Path.isAbsolute, rooted]
  have hstart : Path.absolute buried.cwdPath "." = rooted (List.replicate 18 burrow) := by
    rw [hcwd, Path.absolute, if_neg (by decide), Path.join_here hnames]
  have hnot : hasManifest buried buried.cwdPath = false := by
    rw [hcwd, ← Bool.not_eq_true, hasManifest_buried (Nat.le_refl 18)]
    decide
  refine ⟨habsolute, hasEntry_buried, exists_load_error hnot, ?_⟩
  rw [run_findAndLoad Disk.fileSystem buried hnames hstart]
  rcases Path.find?_upwards (hasManifest buried) (List.replicate 18 burrow) with
    ⟨k, hk, hhas, -, hfind⟩ | ⟨hnone, -⟩
  · rw [List.length_replicate] at hk
    rw [List.take_replicate, Nat.min_eq_left hk] at hhas hfind
    obtain rfl := (hasManifest_buried hk).mp hhas
    rw [hfind]
    rfl
  · have hroot := hnone 0 (Nat.zero_le _)
    rw [← Bool.not_eq_true] at hroot
    exact absurd ((hasManifest_buried (Nat.zero_le 18)).mpr rfl) hroot

end Manifest

end Linkage
