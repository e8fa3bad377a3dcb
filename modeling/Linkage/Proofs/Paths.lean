import Linkage.Files.Path
import Mathlib.Data.List.Basic
import Mathlib.Tactic.MkIffOfInductiveProp

/-!
# Clean paths

A clean absolute path leads from the root through names. Every absolute path is cleaned to one of
this form, and so is every path as seen from a directory. Going up from such a path takes away its
last name, and going up from the root stays there, so the directories above a path are those of the
names it starts with.
-/

namespace Linkage.Path

/-- A name that a clean path may lead through. -/
@[mk_iff]
structure IsName (name : List Char) : Prop where
  nonempty : name ≠ []
  noSlash : '/' ∉ name
  notHere : name ≠ ['.']
  notUp : name ≠ ['.', '.']

instance (name : List Char) : Decidable (IsName name) := decidable_of_iff' _ (isName_iff name)

def rooted (names : List (List Char)) : String := String.ofList ('/' :: joined names)

section
variable {path cwd : String} {name part cs : List Char} {names names' ps kept : List (List Char)}

-- ---------------------------------------------------------------------------
-- Parts
-- ---------------------------------------------------------------------------

theorem parts_eq_splitOn (cs : List Char) : parts cs = cs.splitOn '/' := by
  induction cs with
  | nil => rfl
  | cons c cs ih =>
    simp only [List.splitOn] at ih ⊢
    rw [parts, ih, List.splitOnP_cons_eq_if_modifyHead]
    by_cases hc : c = '/'
    · simp [hc]
    · cases hps : cs.splitOnP (· == '/') with
      | nil => exact absurd hps (List.splitOnP_ne_nil _ cs)
      | cons p ps => simp [hc]

theorem parts_append (a b : List Char) : parts (a ++ '/' :: b) = parts a ++ parts b := by
  simp only [parts_eq_splitOn, List.splitOn]
  exact List.splitOnP_append_cons a b (by decide)

theorem parts_joined (hne : ps ≠ []) (h : ∀ p ∈ ps, '/' ∉ p) : parts (joined ps) = ps := by
  rw [parts_eq_splitOn]
  exact List.splitOn_intercalate '/' h hne

theorem parts_name (h : '/' ∉ name) : parts name = [name] := by
  have hparts : parts (joined [name]) = [name] := parts_joined (by simp) (by simpa using h)
  simpa [joined] using hparts

theorem noSlash_of_mem_parts (h : part ∈ parts cs) : '/' ∉ part := by
  induction cs generalizing part with
  | nil => simp_all [parts]
  | cons c cs ih =>
    rw [parts] at h
    split at h
    · rcases List.mem_cons.mp h with rfl | h
      · simp
      · exact ih h
    · rename_i hc
      split at h
      · rw [List.mem_singleton.mp h]
        simpa using Ne.symm hc
      · rename_i p ps hps
        rcases List.mem_cons.mp h with rfl | h
        · have hp : '/' ∉ p := ih (by simp [hps])
          simpa [Ne.symm hc] using hp
        · exact ih (by simp [hps, h])

-- ---------------------------------------------------------------------------
-- Cleaning
-- ---------------------------------------------------------------------------

theorem cleanStep_name (h : IsName name) : cleanStep true kept name = name :: kept := by
  simp [cleanStep, h.nonempty, h.notHere, h.notUp]

theorem foldl_cleanStep (h : ∀ name ∈ names, IsName name) :
    names.foldl (cleanStep true) kept = names.reverse ++ kept := by
  induction names generalizing kept with
  | nil => rfl
  | cons name names ih =>
    obtain ⟨hname, hnames⟩ := List.forall_mem_cons.mp h
    rw [List.foldl_cons, cleanStep_name hname, ih hnames, List.reverse_cons, List.append_assoc]
    rfl

theorem isName_cleanStep (hpart : '/' ∉ part) (hkept : ∀ name ∈ kept, IsName name) :
    ∀ name ∈ cleanStep true kept part, IsName name := by
  unfold cleanStep
  split
  · exact hkept
  rename_i hskip
  split
  · cases kept with
    | nil => simp
    | cons last rest =>
      obtain ⟨hlast, hrest⟩ := List.forall_mem_cons.mp hkept
      simpa [hlast.notUp] using hrest
  · rename_i hup
    obtain ⟨hnonempty, hhere⟩ := not_or.mp hskip
    exact List.forall_mem_cons.mpr ⟨⟨hnonempty, hpart, hhere, hup⟩, hkept⟩

theorem isName_foldl (hps : ∀ part ∈ ps, '/' ∉ part) (hkept : ∀ name ∈ kept, IsName name) :
    ∀ name ∈ ps.foldl (cleanStep true) kept, IsName name := by
  induction ps generalizing kept with
  | nil => exact hkept
  | cons part ps ih =>
    obtain ⟨hpart, hps⟩ := List.forall_mem_cons.mp hps
    exact ih hps (isName_cleanStep hpart hkept)

theorem clean_absolute (h : isAbsolute path = true) :
    clean path = rooted ((parts path.toList).foldl (cleanStep true) []).reverse := by
  simp only [clean, h]
  rfl

theorem exists_clean (h : isAbsolute path = true) :
    ∃ names, (∀ name ∈ names, IsName name) ∧ clean path = rooted names := by
  refine ⟨_, fun name hname => ?_, clean_absolute h⟩
  exact isName_foldl (fun _ => noSlash_of_mem_parts) (by simp) name (List.mem_reverse.mp hname)

/-- Every path as seen from an absolute one is clean and absolute. -/
theorem exists_absolute (hcwd : isAbsolute cwd = true) (path : String) :
    ∃ names, (∀ name ∈ names, IsName name) ∧ absolute cwd path = rooted names := by
  unfold absolute
  split
  · rename_i hpath
    exact exists_clean hpath
  · have hhead : cwd.toList.head? = some '/' := by simpa [isAbsolute] using hcwd
    have hne : cwd.isEmpty = false := by
      cases hempty : cwd.isEmpty with
      | false => rfl
      | true => simp [String.isEmpty_iff.mp hempty] at hhead
    rw [join, hne]
    exact exists_clean (by simp [isAbsolute, hhead])

theorem clean_slash (cs : List Char) :
    clean (String.ofList ('/' :: cs)) = rooted ((parts cs).foldl (cleanStep true) []).reverse := by
  rw [clean_absolute (by simp [isAbsolute]), String.toList_ofList, parts, if_pos rfl]
  rfl

/-- The names of a path are those that its parts leave; the root has none, but an empty part. -/
theorem foldl_parts_joined (h : ∀ name ∈ names, IsName name) :
    (parts (joined names)).foldl (cleanStep true) [] = names.reverse := by
  by_cases hne : names = []
  · subst hne
    rfl
  · rw [parts_joined hne fun name hname => (h name hname).noSlash, foldl_cleanStep h,
      List.append_nil]

theorem rooted_inj (h : ∀ name ∈ names, IsName name) (h' : ∀ name ∈ names', IsName name)
    (heq : rooted names = rooted names') : names = names' := by
  have hjoined : joined names = joined names' := (List.cons.inj (String.ofList_inj.mp heq)).2
  have hfold := foldl_parts_joined h
  rw [hjoined, foldl_parts_joined h'] at hfold
  exact (List.reverse_inj.mp hfold).symm

-- ---------------------------------------------------------------------------
-- Going down and up
-- ---------------------------------------------------------------------------

theorem joined_concat (hne : names ≠ []) (name : List Char) :
    joined (names ++ [name]) = joined names ++ '/' :: name := by
  induction names with
  | nil => exact absurd rfl hne
  | cons first names ih =>
    cases names with
    | nil => simp [joined]
    | cons second names =>
      have ih := ih (by simp)
      simp only [joined, List.cons_append, List.intercalate_cons_cons] at ih ⊢
      rw [ih]
      simp

theorem rooted_concat (names : List (List Char)) (name : List Char) :
    rooted (names ++ [name]) =
      String.ofList ((if names = [] then [] else '/' :: joined names) ++ '/' :: name) := by
  by_cases hne : names = []
  · subst hne
    simp [rooted, joined]
  · rw [rooted, joined_concat hne, if_neg hne]
    rfl

/-- What a path adds to a clean one is what its parts do to the names. -/
theorem join_rooted_ofList (h : ∀ name ∈ names, IsName name) (cs : List Char) :
    join (rooted names) (String.ofList cs) =
      rooted ((parts cs).foldl (cleanStep true) names.reverse).reverse := by
  have hne : (rooted names).isEmpty = false := by
    simp [rooted]
  have hchars : rooted names ++ "/" ++ String.ofList cs =
      String.ofList ('/' :: (joined names ++ '/' :: cs)) := by
    simp [rooted, ← String.toList_inj]
  rw [join, hne, hchars]
  simp only [Bool.false_eq_true, ↓reduceIte]
  rw [clean_slash, parts_append, List.foldl_append, foldl_parts_joined h]

theorem join_rooted (h : ∀ name ∈ names, IsName name) (hname : IsName name) :
    join (rooted names) (String.ofList name) = rooted (names ++ [name]) := by
  rw [join_rooted_ofList h, parts_name hname.noSlash, List.foldl_cons, cleanStep_name hname]
  simp

theorem join_here (h : ∀ name ∈ names, IsName name) : join (rooted names) "." = rooted names := by
  refine (join_rooted_ofList h ['.']).trans ?_
  simp [parts, cleanStep]

theorem dropWhile_reverse_append {x : Char} {b : List Char} (a : List Char) (h : x ∉ b) :
    (a ++ x :: b).reverse.dropWhile (· ≠ x) = x :: a.reverse := by
  have hb : ∀ c ∈ b.reverse, decide (c ≠ x) = true := by
    intro c hc
    simpa using fun heq : c = x => h (heq ▸ List.mem_reverse.mp hc)
  rw [List.reverse_append, List.reverse_cons, List.append_assoc, List.dropWhile_append_of_pos hb]
  simp

theorem upToLast_append (a : List Char) (h : '/' ∉ name) :
    upToLast (a ++ '/' :: name) = a ++ ['/'] := by
  rw [upToLast, dropWhile_reverse_append a h, List.reverse_cons, List.reverse_reverse]

theorem dir_rooted (h : ∀ name ∈ names, IsName name) (hname : IsName name) :
    dir (rooted (names ++ [name])) = rooted names := by
  rw [dir, rooted_concat, String.toList_ofList, upToLast_append _ hname.noSlash]
  by_cases hne : names = []
  · subst hne
    rfl
  · rw [if_neg hne, List.cons_append, clean_slash, parts_append, List.foldl_append,
      foldl_parts_joined h]
    simp [parts, cleanStep]

theorem dir_root : dir (rooted []) = rooted [] := by decide

theorem dir_rooted_ne (h : ∀ part ∈ names ++ [name], IsName part) :
    dir (rooted (names ++ [name])) ≠ rooted (names ++ [name]) := by
  obtain ⟨hnames, hname⟩ := List.forall_mem_append.mp h
  rw [dir_rooted hnames (hname name (by simp))]
  intro heq
  simpa using rooted_inj hnames h heq

-- ---------------------------------------------------------------------------
-- The directories above a path
-- ---------------------------------------------------------------------------

def upwards (names : List (List Char)) : List String :=
  (List.range (names.length + 1)).reverse.map fun k => rooted (names.take k)

theorem upwards_concat (names : List (List Char)) (name : List Char) :
    upwards (names ++ [name]) = rooted (names ++ [name]) :: upwards names := by
  have hrest : ∀ k ∈ (List.range (names.length + 1)).reverse,
      rooted ((names ++ [name]).take k) = rooted (names.take k) := by
    intro k hk
    have hle : k ≤ names.length := by simpa [Nat.lt_succ_iff] using hk
    rw [List.take_append_of_le_length hle]
  rw [upwards, List.length_append, List.length_singleton, List.range_succ, List.reverse_append,
    List.map_append, List.map_congr_left hrest]
  simp [upwards, List.take_of_length_le]

theorem length_le_rooted (h : ∀ name ∈ names, IsName name) :
    names.length ≤ (rooted names).length := by
  have hjoined : names.length ≤ (joined names).length := by
    induction names with
    | nil => simp
    | cons name names ih =>
      obtain ⟨hname, hnames⟩ := List.forall_mem_cons.mp h
      have hpos := List.length_pos_iff.mpr hname.nonempty
      cases names with
      | nil => simpa [joined, Nat.one_le_iff_ne_zero, Nat.pos_iff_ne_zero] using hpos
      | cons second names =>
        have ih := ih hnames
        simp only [joined, List.intercalate_cons_cons, List.length_append, List.length_cons] at ih ⊢
        omega
  rw [rooted, String.length_ofList, List.length_cons]
  omega

/-- As many steps as there are names lead to the root. -/
theorem ancestorsFrom_rooted (h : ∀ name ∈ names, IsName name) (hn : names.length ≤ n) :
    ancestorsFrom n (rooted names) = upwards names := by
  induction n generalizing names with
  | zero =>
    obtain rfl := List.length_eq_zero_iff.mp (Nat.le_zero.mp hn)
    rfl
  | succ n ih =>
    rw [ancestorsFrom]
    rcases List.eq_nil_or_concat names with rfl | ⟨front, name, rfl⟩
    · rw [if_pos dir_root]
      rfl
    · rw [List.concat_eq_append] at h hn ⊢
      obtain ⟨hfront, hname⟩ := List.forall_mem_append.mp h
      rw [if_neg (dir_rooted_ne h), dir_rooted hfront (hname name (by simp)), upwards_concat,
        ih hfront (by simpa using hn)]

theorem ancestors_rooted (h : ∀ name ∈ names, IsName name) :
    ancestors (rooted names) = upwards names :=
  ancestorsFrom_rooted h (length_le_rooted h)

end

end Linkage.Path
