import Linkage.Files.Disk
import Mathlib.Data.List.Basic
import Mathlib.Data.List.DropRight

/-!
# File systems

What the commands rely on in a file system: reading leaves it as it is, and writing changes a single
file or fails and changes nothing. Disks are such file systems.
-/

namespace Linkage

/-- A file system as far as the commands go: where paths lead to, and which files there are. -/
structure FileSystem (σ : Type) [FileAccess (StateM σ)] where
  Place : Type
  /-- The place that a path leads to, of a file that is there or of one that may be created. -/
  place : σ → String → Option Place
  /-- The content of the file at a place. -/
  file : σ → Place → Option (List UInt8)
  workingDirectory : ∀ s, ((FileAccess.workingDirectory : StateM σ _).run s).2 = s
  present : ∀ path s, ((FileAccess.present path : StateM σ _).run s).2 = s
  read : ∀ path s, ((FileAccess.read path : StateM σ _).run s).2 = s
  /-- The whole content is written, or nothing is. -/
  write : ∀ path bytes s,
    (∃ e, (FileAccess.write path bytes : StateM σ _).run s = (.error e, s)) ∨
    ∃ at_ s', (FileAccess.write path bytes : StateM σ _).run s = (.ok (), s') ∧
      place s path = some at_ ∧ place s' = place s ∧ file s' at_ = some bytes ∧
      ∀ other, other ≠ at_ → file s' other = file s other
  /-- At most an empty file is new. -/
  extend : ∀ path s,
    (∃ e, (FileAccess.extend path : StateM σ _).run s = (.error e, s)) ∨
    ∃ at_ s', (FileAccess.extend path : StateM σ _).run s = (.ok (), s') ∧
      place s path = some at_ ∧ place s' = place s ∧
      (∀ other, other ≠ at_ → file s' other = file s other) ∧
      ∀ other bytes, ((FileAccess.read other : StateM σ _).run s').1 = .ok bytes →
        bytes = [] ∨ ((FileAccess.read other : StateM σ _).run s).1 = .ok bytes

-- ---------------------------------------------------------------------------
-- Disks
-- ---------------------------------------------------------------------------

namespace Disk

def content? (d : Disk) (at_ : Location) : Option (List UInt8) :=
  match d.node? at_ with
  | some (.file bytes) => some bytes
  | _ => none

def IsDirectory (d : Disk) (at_ : Location) : Prop := d.node? at_ = some .directory

section
variable {d d' : Disk} {at_ other dir l next : Location} {n : Node} {name path : String}
  {names above : List String} {bytes : List UInt8}

theorem lookup_replace (nodes : List (Location × Node)) (at_ other : Location) (n : Node) :
    (nodes.map fun entry => if entry.1 == at_ then (at_, n) else entry).lookup other =
      if other = at_ then (nodes.lookup at_).map fun _ => n else nodes.lookup other := by
  induction nodes with
  | nil => simp
  | cons entry rest ih =>
    obtain ⟨k, v⟩ := entry
    by_cases hk : k = at_
    · subst hk
      by_cases ho : other = k
      · subst ho
        simp
      · have hne : (other == k) = false := beq_false_of_ne ho
        simpa [List.lookup_cons, hne, ho] using ih
    · by_cases ho : other = k
      · subst ho
        simp [hk]
      · have hne : (other == k) = false := beq_false_of_ne ho
        have hat : (at_ == k) = false := beq_false_of_ne (Ne.symm hk)
        simpa [List.lookup_cons, hne, hk, hat] using ih

theorem node?_insert (hat : at_ ≠ []) :
    (d.insert at_ n).node? other = if other = at_ then some n else d.node? other := by
  unfold node?
  by_cases ho : other = []
  · subst ho
    simp [Ne.symm hat]
  simp only [ho, ↓reduceIte]
  unfold insert
  split
  · rename_i hany
    have hsome : (d.nodes.lookup at_).isSome = true := by
      rw [List.lookup_isSome_iff]
      simpa using hany
    obtain ⟨v, hv⟩ := Option.isSome_iff_exists.mp hsome
    simp only [lookup_replace, hv, Option.map_some]
  · rename_i hany
    have hnone : d.nodes.lookup at_ = none := by
      rw [← Option.not_isSome_iff_eq_none, List.lookup_isSome_iff]
      simpa using hany
    simp only [List.lookup_append]
    by_cases heq : other = at_
    · subst heq
      simp [hnone]
    · have hne : (other == at_) = false := beq_false_of_ne heq
      simp [List.lookup_cons, hne, heq]

theorem step_transfer (hstep : d.step at_ name = .ok next) (hat : d'.IsDirectory at_)
    (hnext : d'.node? next ≠ none) : d'.step at_ name = .ok next := by
  unfold step at hstep
  split at hstep
  · cases hstep
  · cases hstep
  · rw [step, hat]
    simp only
    split_ifs at hstep ⊢ with _ _ _ hsome
    · exact hstep
    · exact hstep
    · exact hstep
    · obtain rfl := Except.ok.inj hstep
      exact hsome (Option.isSome_iff_ne_none.mpr hnext)

theorem isDirectory_of_step (h : d.step at_ name = .ok next) : d.IsDirectory at_ := by
  unfold step at h
  split at h
  · cases h
  · cases h
  · assumption

/-- Where a path leads to depends on the directories on the way, and on whether there is anything
at its end. -/
theorem follow_transfer (h : ∀ l, d.IsDirectory l → d'.IsDirectory l)
    (hf : d.follow at_ names = .ok l) (hl : d'.node? l ≠ none) : d'.follow at_ names = .ok l := by
  induction names generalizing at_ with
  | nil => exact hf
  | cons name rest ih =>
    rw [follow] at hf ⊢
    cases hstep : d.step at_ name with
    | error problem => simp [hstep] at hf
    | ok next =>
      rw [hstep] at hf
      have hnext : d'.node? next ≠ none := by
        cases rest with
        | nil => exact Except.ok.inj hf ▸ hl
        | cons name' rest' =>
          simp only [follow] at hf
          cases hstep' : d.step next name' with
          | error problem => simp [hstep'] at hf
          | ok next' =>
            rw [h next (isDirectory_of_step hstep')]
            exact Option.some_ne_none _
      rw [step_transfer hstep (h _ (isDirectory_of_step hstep)) hnext]
      exact ih hf

theorem step_dot (h : d.IsDirectory dir) : d.step dir "." = .ok dir := by
  rw [step, h]
  simp only [or_true, ↓reduceIte]

/-- A file may be written at a path: names lead to a directory, and the last one is neither empty
nor that of a directory there. -/
structure Targets (d : Disk) (path : String) (above : List String) (name : String)
    (dir : Location) : Prop where
  allowed : pathProblem? path = none
  names : Disk.names path = above ++ [name]
  follow : d.follow (d.origin path) above = .ok dir
  directory : d.IsDirectory dir
  nonempty : name ≠ ""
  notHere : name ≠ "."
  notUp : name ≠ ".."
  short : name.utf8ByteSize < nameLimit
  free : ¬ d.IsDirectory (dir ++ [name])

theorem exists_last_of_target (ht : d.target path = .ok at_) : pathProblem? path = none ∧
    ∃ above name, Disk.names path = above ++ [name] ∧ name ≠ "" := by
  unfold target at ht
  split at ht
  · cases ht
  rename_i hp
  refine ⟨hp, ?_⟩
  rcases List.eq_nil_or_concat (Disk.names path) with hnil | ⟨above, name, hnames⟩
  · simp [hnil] at ht
  rw [List.concat_eq_append] at hnames
  refine ⟨above, name, hnames, ?_⟩
  rintro rfl
  -- with an empty last name, fewer names stay than there are
  have hstay : ((above ++ [""]).reverse.dropWhile String.isEmpty).reverse =
      above.rdropWhile String.isEmpty := List.rdropWhile_concat_pos _ _ _ rfl
  have hfront : above.rdropWhile String.isEmpty <+: above := List.rdropWhile_prefix _ _
  have hfewer : (above.rdropWhile String.isEmpty).length ≠ (above ++ [""]).length := by
    rw [List.length_append]
    exact Nat.ne_of_lt (Nat.lt_succ_of_le hfront.length_le)
  simp only [hnames, hstay] at ht
  split at ht
  · cases ht
  cases hf : d.follow (d.origin path) (above.rdropWhile String.isEmpty).dropLast with
  | error problem => simp [hf, bind, Except.bind] at ht
  | ok dir =>
    cases hdot : d.step dir "." with
    | error problem => simp [hf, hdot, bind, Except.bind] at ht
    | ok next =>
      simp only [hf, hdot, bind, Except.bind, if_pos (Or.inl hfewer)] at ht
      cases ht

theorem target_concat (hp : pathProblem? path = none) (hnames : Disk.names path = above ++ [name])
    (hname : name ≠ "") : d.target path = .ok at_ ↔
      ∃ dir, d.Targets path above name dir ∧ at_ = dir ++ [name] := by
  have hall : ((above ++ [name]).reverse.dropWhile String.isEmpty).reverse = above ++ [name] :=
    List.rdropWhile_concat_neg _ _ _ (by simpa using hname)
  simp only [target, hp, hnames, hall, List.getLast?_concat, List.dropLast_concat]
  cases hfollow : d.follow (d.origin path) above with
  | error problem =>
    refine ⟨nofun, ?_⟩
    rintro ⟨dir, h, -⟩
    cases hfollow.symm.trans h.follow
  | ok dir =>
    constructor
    · intro ht
      cases hdot : d.step dir "." with
      | error problem => simp [hdot, bind, Except.bind] at ht
      | ok next =>
        simp only [hdot, bind, Except.bind] at ht
        split_ifs at ht with hplain hlong hdir
        obtain ⟨hhere, hup⟩ : name ≠ "." ∧ name ≠ ".." := by simpa using hplain
        refine ⟨dir,
          ⟨hp, hnames, hfollow, isDirectory_of_step hdot, hname, hhere, hup, ?_, hdir⟩, ?_⟩
        · exact Nat.not_le.mp hlong
        · exact (Except.ok.inj ht).symm
    · rintro ⟨dir', h, rfl⟩
      obtain rfl := Except.ok.inj (hfollow.symm.trans h.follow)
      simp only [step_dot h.directory, bind, Except.bind]
      rw [if_neg (by simp [h.notHere, h.notUp]), if_neg (Nat.not_le.mpr h.short)]
      exact if_neg h.free

theorem target_eq_ok : d.target path = .ok at_ ↔
    ∃ above name dir, d.Targets path above name dir ∧ at_ = dir ++ [name] := by
  constructor
  · intro ht
    obtain ⟨hp, above, name, hnames, hname⟩ := exists_last_of_target ht
    exact ⟨above, name, (target_concat hp hnames hname).mp ht⟩
  · rintro ⟨above, name, dir, h, hat⟩
    exact (target_concat h.allowed h.names h.nonempty).mpr ⟨dir, h, hat⟩

theorem not_isDirectory_of_target (ht : d.target path = .ok at_) :
    at_ ≠ [] ∧ ¬ d.IsDirectory at_ := by
  obtain ⟨above, name, dir, h, rfl⟩ := target_eq_ok.mp ht
  exact ⟨by simp, h.free⟩

/-- Whether and where a file may be written depends on directories only. -/
theorem Targets.transfer (h : ∀ l, d.IsDirectory l ↔ d'.IsDirectory l) (hcwd : d'.cwd = d.cwd)
    (ht : d.Targets path above name dir) : d'.Targets path above name dir := by
  have horigin : d'.origin path = d.origin path := by rw [origin, origin, hcwd]
  have hdir := (h dir).mp ht.directory
  have hsome : d'.node? dir ≠ none := by
    rw [hdir]
    exact Option.some_ne_none _
  exact { ht with
    follow := horigin ▸ follow_transfer (fun l => (h l).mp) ht.follow hsome
    directory := hdir
    free := fun hfree => ht.free ((h _).mpr hfree) }

theorem target_transfer (h : ∀ l, d.IsDirectory l ↔ d'.IsDirectory l) (hcwd : d'.cwd = d.cwd)
    (ht : d.target path = .ok at_) : d'.target path = .ok at_ := by
  obtain ⟨above, name, dir, hd, hat⟩ := target_eq_ok.mp ht
  exact target_eq_ok.mpr ⟨above, name, dir, hd.transfer h hcwd, hat⟩

theorem target_eq (h : ∀ l, d.IsDirectory l ↔ d'.IsDirectory l) (hcwd : d'.cwd = d.cwd) :
    (d'.target path).toOption = (d.target path).toOption := by
  refine Option.ext fun at_ => ?_
  have hsome : ∀ x : Except FileProblem Location, x.toOption = some at_ ↔ x = .ok at_ := by
    intro x
    cases x <;> simp [Except.toOption]
  rw [hsome, hsome]
  exact ⟨target_transfer (fun l => (h l).symm) hcwd.symm, target_transfer h hcwd⟩

theorem isDirectory_insert (hat : at_ ≠ []) (hdir : ¬ d.IsDirectory at_) (bytes : List UInt8)
    (l : Location) : d.IsDirectory l ↔ (d.insert at_ (.file bytes)).IsDirectory l := by
  rw [IsDirectory, IsDirectory, node?_insert hat]
  split
  · rename_i heq
    subst heq
    exact ⟨fun h => absurd h hdir, nofun⟩
  · exact Iff.rfl

theorem content?_insert (hat : at_ ≠ []) (bytes : List UInt8) :
    (d.insert at_ (.file bytes)).content? at_ = some bytes ∧
      ∀ other, other ≠ at_ → (d.insert at_ (.file bytes)).content? other = d.content? other := by
  constructor
  · simp [content?, node?_insert hat]
  · intro other hne
    simp [content?, node?_insert hat, hne]

theorem cwd_insert (d : Disk) (at_ : Location) (n : Node) : (d.insert at_ n).cwd = d.cwd := by
  unfold insert
  split <;> rfl

theorem read_eq_ok : d.read path = .ok bytes ↔
    ∃ l, d.locate path = .ok l ∧ d.node? l = some (.file bytes) := by
  unfold read
  split
  · simp_all
  · rename_i l hl
    split <;> simp_all

/-- What can be read once there is a new empty file could be read before, or is empty. -/
theorem read_insert (hat : at_ ≠ []) (hdir : ¬ d.IsDirectory at_)
    (h : (d.insert at_ (.file [])).read path = .ok bytes) :
    bytes = [] ∨ d.read path = .ok bytes := by
  obtain ⟨l, hl, hfile⟩ := read_eq_ok.mp h
  rw [node?_insert hat] at hfile
  split at hfile
  · cases hfile
    exact .inl rfl
  · refine .inr (read_eq_ok.mpr ⟨l, ?_, hfile⟩)
    unfold locate at hl ⊢
    split
    · rename_i problem hp
      simp [hp] at hl
    · rename_i hp
      simp only [hp, origin, cwd_insert] at hl
      refine follow_transfer (fun l => (isDirectory_insert hat hdir [] l).mpr) hl ?_
      rw [hfile]
      exact Option.some_ne_none _

def fileSystem : FileSystem Disk where
  Place := Location
  place d path := (d.target path).toOption
  file := content?
  workingDirectory _ := rfl
  present _ _ := rfl
  read _ _ := rfl
  write path bytes d := by
    have hrun : (FileAccess.write path bytes : StateM Disk _).run d = d.write path bytes := rfl
    rw [hrun, write]
    cases ht : d.target path with
    | error problem => exact .inl ⟨_, rfl⟩
    | ok at_ =>
      obtain ⟨hat, hdir⟩ := not_isDirectory_of_target ht
      have hcontent := content?_insert (d := d) hat bytes
      refine .inr ⟨at_, _, rfl, rfl, funext fun path => ?_, hcontent⟩
      exact target_eq (isDirectory_insert hat hdir bytes) (cwd_insert d at_ _)
  extend path d := by
    have hrun : (FileAccess.extend path : StateM Disk _).run d = d.extend path := rfl
    rw [hrun, extend]
    cases ht : d.target path with
    | error problem => exact .inl ⟨_, rfl⟩
    | ok at_ =>
      obtain ⟨hat, hdir⟩ := not_isDirectory_of_target ht
      refine .inr ⟨at_, _, rfl, rfl, ?_⟩
      split
      · exact ⟨rfl, fun _ _ => rfl, fun _ _ h => .inr h⟩
      · refine ⟨funext fun path => ?_, (content?_insert hat []).2, fun other bytes h => ?_⟩
        · exact target_eq (isDirectory_insert hat hdir []) (cwd_insert d at_ _)
        · exact read_insert hat hdir h

end

end Disk

end Linkage
