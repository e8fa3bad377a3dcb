import Linkage.Manifest.Basic
import Linkage.Proofs.Filing
import Linkage.Proofs.Paths
import Mathlib.Data.List.DropRight
import Mathlib.Logic.Function.Iterate

/-!
# Default outputs

A path can be cut in one way only: at its last slash, and behind that at the last dot. The default
output of a path differs from it behind the slash alone, where its stem is longer. So linking what
was linked before comes to a new path each time, and writes a file next to the earlier ones, which
stay as they are.
-/

namespace Linkage

namespace Path

def lastElement (path : List Char) : List Char := (path.reverse.takeWhile (· ≠ '/')).reverse

def withoutExtension (element : List Char) : List Char :=
  if '.' ∈ element then ((element.reverse.dropWhile (· ≠ '.')).drop 1).reverse else element

/-- A path cut at its last slash, and behind that at the last dot. -/
@[ext]
structure Split (path : String) where
  /-- Everything up to and including the last slash. -/
  front : List Char
  stem : List Char
  /-- Everything from the last dot on, unless the last element has none. -/
  extension : List Char
  text : path.toList = front ++ (stem ++ extension)
  frontEnds : front = [] ∨ ∃ above, front = above ++ ['/']
  noSlash : '/' ∉ stem ++ extension
  extensionStarts : extension = [] ∧ '.' ∉ stem ∨ ∃ rest, extension = '.' :: rest ∧ '.' ∉ rest

def Split.element {path : String} (s : Split path) : List Char := s.stem ++ s.extension

section
variable {path : String} {name rest cs : List Char}

-- ---------------------------------------------------------------------------
-- The last slash and the last dot
-- ---------------------------------------------------------------------------

theorem exists_last_of_mem {x : Char} (h : x ∈ cs) : ∃ a b, cs = a ++ x :: b ∧ x ∉ b := by
  obtain ⟨b, a, hcs, hb⟩ := List.eq_append_cons_of_mem (List.mem_reverse.mpr h)
  refine ⟨a.reverse, b.reverse, ?_, by simpa using hb⟩
  rw [← List.reverse_reverse cs, hcs]
  simp

theorem upToLast_name (h : '/' ∉ name) : upToLast name = [] := by
  refine List.rdropWhile_eq_nil_iff.mpr fun c hc => ?_
  simpa using fun heq : c = '/' => h (heq ▸ hc)

theorem upToLast_ends (cs : List Char) :
    upToLast cs = [] ∨ ∃ above, upToLast cs = above ++ ['/'] := by
  by_cases h : '/' ∈ cs
  · obtain ⟨above, name, rfl, hname⟩ := exists_last_of_mem h
    exact .inr ⟨above, upToLast_append above hname⟩
  · exact .inl (upToLast_name h)

theorem upToLast_append_lastElement (cs : List Char) : upToLast cs ++ lastElement cs = cs :=
  List.rdropWhile_append_rtakeWhile

theorem noSlash_lastElement (cs : List Char) : '/' ∉ lastElement cs := by
  intro h
  simpa using List.mem_rtakeWhile_imp h

theorem withoutExtension_append (stem : List Char) (h : '.' ∉ rest) :
    withoutExtension (stem ++ '.' :: rest) = stem := by
  rw [withoutExtension, if_pos (by simp), dropWhile_reverse_append stem h, List.drop_one,
    List.tail_cons, List.reverse_reverse]

theorem withoutExtension_of_notMem (h : '.' ∉ name) : withoutExtension name = name := if_neg h

def extensionOf (element : List Char) : List Char := element.drop (withoutExtension element).length

theorem extensionOf_cases (element : List Char) :
    withoutExtension element ++ extensionOf element = element ∧
      (extensionOf element = [] ∧ '.' ∉ withoutExtension element ∨
        ∃ rest, extensionOf element = '.' :: rest ∧ '.' ∉ rest) := by
  unfold extensionOf
  by_cases h : '.' ∈ element
  · obtain ⟨stem, rest, rfl, hrest⟩ := exists_last_of_mem h
    rw [withoutExtension_append stem hrest, List.drop_left]
    exact ⟨rfl, .inr ⟨rest, rfl, hrest⟩⟩
  · rw [withoutExtension_of_notMem h, List.drop_length, List.append_nil]
    exact ⟨rfl, .inl ⟨rfl, h⟩⟩

def split (path : String) : Split path where
  front := upToLast path.toList
  stem := withoutExtension (lastElement path.toList)
  extension := extensionOf (lastElement path.toList)
  text := by rw [(extensionOf_cases _).1, upToLast_append_lastElement]
  frontEnds := upToLast_ends _
  noSlash := by
    rw [(extensionOf_cases _).1]
    exact noSlash_lastElement _
  extensionStarts := (extensionOf_cases _).2

namespace Split

theorem upToLast_eq (s : Split path) : upToLast path.toList = s.front := by
  rw [s.text]
  rcases s.frontEnds with hfront | ⟨above, hfront⟩
  · rw [hfront, List.nil_append, upToLast_name s.noSlash]
  · rw [hfront, List.append_assoc, List.singleton_append, upToLast_append above s.noSlash]

theorem lastElement_eq (s : Split path) : lastElement path.toList = s.element := by
  have happend := upToLast_append_lastElement path.toList
  rw [s.upToLast_eq, s.text] at happend
  rw [s.text]
  exact List.append_cancel_left happend

theorem withoutExtension_eq (s : Split path) : withoutExtension s.element = s.stem := by
  unfold element
  rcases s.extensionStarts with ⟨hnil, hstem⟩ | ⟨rest, hrest, hdot⟩
  · rw [hnil, List.append_nil, withoutExtension_of_notMem hstem]
  · rw [hrest, withoutExtension_append s.stem hdot]

instance : Subsingleton (Split path) where
  allEq s t := by
    have hfront : s.front = t.front := s.upToLast_eq.symm.trans t.upToLast_eq
    have helement : s.element = t.element := s.lastElement_eq.symm.trans t.lastElement_eq
    have hstem : s.stem = t.stem := by
      rw [← s.withoutExtension_eq, helement, t.withoutExtension_eq]
    refine Split.ext hfront hstem ?_
    unfold element at helement
    rw [hstem] at helement
    exact List.append_cancel_left helement

end Split

-- ---------------------------------------------------------------------------
-- Extensions
-- ---------------------------------------------------------------------------

/-- The search goes on through characters that are neither slashes nor dots. -/
theorem extensionFrom_append (hslash : '/' ∉ name) (hdot : '.' ∉ name) (before behind : List Char) :
    extensionFrom (name.reverse ++ before) behind = extensionFrom before (name ++ behind) := by
  induction name generalizing before with
  | nil => rfl
  | cons c name ih =>
    obtain ⟨hc, hname⟩ := not_or.mp (mt List.mem_cons.mpr hslash)
    obtain ⟨hc', hname'⟩ := not_or.mp (mt List.mem_cons.mpr hdot)
    rw [List.reverse_cons, List.append_assoc, ih hname hname', List.singleton_append, extensionFrom,
      if_neg (Ne.symm hc), if_neg (Ne.symm hc'), List.cons_append]

theorem Split.extension_eq (s : Split path) : Path.extension path.toList = s.extension := by
  obtain ⟨hstem, hextension⟩ := not_or.mp (mt List.mem_append.mpr s.noSlash)
  rw [Path.extension, s.text]
  rcases s.extensionStarts with ⟨hnil, hdot⟩ | ⟨rest, hrest, hdot⟩
  · rw [hnil, List.append_nil, List.reverse_append, extensionFrom_append hstem hdot]
    rcases s.frontEnds with hfront | ⟨above, hfront⟩
    · rw [hfront, List.reverse_nil, extensionFrom]
    · rw [hfront, List.reverse_append, List.reverse_singleton, List.singleton_append, extensionFrom,
        if_pos rfl]
  · have hslash : '/' ∉ rest := fun h => hextension (hrest ▸ List.mem_cons_of_mem _ h)
    rw [hrest, ← List.append_assoc, List.reverse_append, List.reverse_cons, List.append_assoc,
      extensionFrom_append hslash hdot, List.append_nil, List.singleton_append, extensionFrom,
      if_neg (by decide), if_pos rfl]

theorem trimSuffix_append (text suffix : List Char) :
    trimSuffix (text ++ suffix) suffix = text := by
  have hsuffix := List.isSuffixOf_iff_suffix.mpr (List.suffix_append text suffix)
  rw [trimSuffix, if_pos hsuffix, List.length_append, Nat.add_sub_cancel, List.take_left]

/-- Only the last element of a path is changed. -/
theorem replaceExtension_eq (path suffix : String) : replaceExtension path suffix =
    String.ofList (upToLast path.toList ++ withoutExtension (lastElement path.toList)) ++
      suffix := by
  have s : Split path := split path
  rw [replaceExtension, s.extension_eq, s.upToLast_eq, s.lastElement_eq, s.withoutExtension_eq,
    s.text, ← List.append_assoc, trimSuffix_append]

-- ---------------------------------------------------------------------------
-- Default outputs
-- ---------------------------------------------------------------------------

namespace Split

theorem toList_defaultOutput (s : Split path) :
    (Manifest.defaultOutput path).toList = s.front ++ (s.stem ++ ".linked.cbor".toList) := by
  rw [Manifest.defaultOutput, replaceExtension_eq, s.upToLast_eq, s.lastElement_eq,
    s.withoutExtension_eq, String.toList_append, String.toList_ofList, List.append_assoc]

theorem toList_ending : ".linked.cbor".toList = ".linked".toList ++ ".cbor".toList := by simp

/-- The default output is cut at the same slash, and then at the second dot of what is new. -/
def linked (s : Split path) : Split (Manifest.defaultOutput path) where
  front := s.front
  stem := s.stem ++ ".linked".toList
  extension := ".cbor".toList
  text := by rw [s.toList_defaultOutput, toList_ending, List.append_assoc]
  frontEnds := s.frontEnds
  noSlash := by
    have hstem : '/' ∉ s.stem := fun h => s.noSlash (List.mem_append_left _ h)
    simpa using hstem
  extensionStarts := .inr ⟨"cbor".toList, by decide, by decide⟩

@[simp] theorem linked_front (s : Split path) : s.linked.front = s.front := rfl

@[simp] theorem linked_stem (s : Split path) : s.linked.stem = s.stem ++ ".linked".toList := rfl

@[simp] theorem linked_element (s : Split path) :
    s.linked.element = s.stem ++ ".linked.cbor".toList := by
  rw [toList_ending, ← List.append_assoc]
  rfl

end Split

theorem split_defaultOutput (path : String) :
    split (Manifest.defaultOutput path) = (split path).linked :=
  Subsingleton.elim _ _

end

end Path

open Linkage.Path (Split split split_defaultOutput)

namespace Manifest

/-- Each time that the default output is taken, the stem grows, and the front stays. -/
theorem split_iterate (input : String) (n : Nat) :
    (split (defaultOutput^[n] input)).front = (split input).front ∧
    (split (defaultOutput^[n] input)).stem =
      (split input).stem ++ (List.replicate n ".linked".toList).flatten := by
  induction n with
  | zero => simp
  | succ n ih =>
    obtain ⟨hfront, hstem⟩ := ih
    rw [Function.iterate_succ_apply', split_defaultOutput, Path.Split.linked_front,
      Path.Split.linked_stem]
    refine ⟨hfront, ?_⟩
    rw [hstem, List.append_assoc, List.replicate_succ', List.flatten_append, List.flatten_singleton]

theorem iterate_ne (input : String) (n k : Nat) :
    defaultOutput^[n + k + 1] input ≠ defaultOutput^[n] input := by
  intro heq
  have hlength : ∀ i, (split (defaultOutput^[i] input)).stem.length =
      (split input).stem.length + i * 7 := by
    intro i
    simp [(split_iterate input i).2]
  have hlonger := hlength (n + k + 1)
  rw [heq, hlength n] at hlonger
  omega

end Manifest

-- ---------------------------------------------------------------------------
-- Writing next to a file
-- ---------------------------------------------------------------------------

namespace Disk

section
variable {d : Disk} {path other name sibling : String} {above : List String} {dir next : Location}

theorem names_split (s : Split path) : names path =
    (names (String.ofList s.front)).dropLast ++ [String.ofList s.element] := by
  have hparts : Path.parts path.toList = (Path.parts s.front).dropLast ++ [s.element] := by
    rw [s.text]
    rcases s.frontEnds with hfront | ⟨above, hfront⟩
    · rw [hfront]
      exact Path.parts_name s.noSlash
    · rw [hfront, List.append_assoc, List.singleton_append, Path.parts_append, Path.parts_append,
        Path.parts_name s.noSlash]
      simp [Path.parts, Path.Split.element]
  simp [names, hparts]

theorem origin_split (s : Split path) : d.origin path = d.origin (String.ofList s.front) := by
  have habsolute : Path.isAbsolute path = Path.isAbsolute (String.ofList s.front) := by
    rw [Path.isAbsolute, Path.isAbsolute, String.toList_ofList, s.text]
    rcases s.frontEnds with hfront | ⟨above, hfront⟩
    · have hhead : (s.stem ++ s.extension).head? ≠ some '/' :=
        fun h => s.noSlash (List.mem_of_head? h)
      simpa [hfront] using hhead
    · simp [hfront]
  rw [origin, origin, habsolute]

theorem follow_concat (at_ : Location) (above : List String) (name : String) :
    d.follow at_ (above ++ [name]) = d.follow at_ above >>= fun dir => d.step dir name := by
  induction above generalizing at_ with
  | nil =>
    show d.follow at_ [name] = d.step at_ name
    rw [follow]
    cases d.step at_ name <;> rfl
  | cons first above ih =>
    simp only [List.cons_append, follow]
    cases d.step at_ first with
    | error problem => rfl
    | ok next => exact ih next

/-- Where a file may be written, the paths with the same front lead to the same directory. -/
theorem Targets.follow_sibling (h : d.Targets other above name dir) (s : Split path)
    (t : Split other) (hfront : t.front = s.front) :
    name = String.ofList t.element ∧
      d.follow (d.origin path) (Disk.names path) = d.step dir (String.ofList s.element) := by
  have hnames := h.names
  rw [names_split t, hfront] at hnames
  obtain ⟨habove, hname⟩ := List.append_inj' hnames rfl
  refine ⟨(List.singleton_inj.mp hname).symm, ?_⟩
  have hfollow := h.follow
  rw [origin_split t, hfront] at hfollow
  rw [origin_split s, names_split s, habove, follow_concat, hfollow]
  rfl

theorem step_insert (hdir : d.IsDirectory dir) (hne : sibling ≠ name) (bytes : List UInt8) :
    (d.insert (dir ++ [name]) (.file bytes)).step dir sibling = d.step dir sibling := by
  have hat : dir ++ [name] ≠ [] := by simp
  have hnode : d.node? dir = some .directory := hdir
  simp [step, node?_insert hat, hnode, hne]

theorem step_ne (hne : sibling ≠ name) (h : d.step dir sibling = .ok next) :
    next ≠ dir ++ [name] := by
  have hnode : d.node? dir = some .directory := isDirectory_of_step h
  rw [step, hnode] at h
  simp only at h
  split_ifs at h <;> obtain rfl := Except.ok.inj h
  · simp
  · intro heq
    have hlength := congrArg List.length heq
    simp at hlength
  · simpa using hne

/-- Writing a file leaves what is read from another path with the same front, be it an error. -/
theorem read_write_sibling (s : Split path) (t : Split other) (hfront : t.front = s.front)
    (hne : other ≠ path) (bytes : List UInt8) :
    (d.write other bytes).2.read path = d.read path := by
  unfold write
  cases ht : d.target other with
  | error problem => rfl
  | ok at_ =>
    obtain ⟨above, name, dir, h, rfl⟩ := target_eq_ok.mp ht
    have hat : dir ++ [name] ≠ [] := by simp
    have h' : (d.insert (dir ++ [name]) (.file bytes)).Targets other above name dir :=
      h.transfer (isDirectory_insert hat h.free bytes) (cwd_insert d _ _)
    obtain ⟨hname, hfollow⟩ := h.follow_sibling s t hfront
    obtain ⟨-, hfollow'⟩ := h'.follow_sibling s t hfront
    have hsibling : String.ofList s.element ≠ name := by
      intro heq
      refine hne (String.toList_inj.mp ?_)
      rw [hname, String.ofList_inj] at heq
      rw [s.text, t.text, hfront]
      exact congrArg _ heq.symm
    have hlocate : (d.insert (dir ++ [name]) (.file bytes)).locate path = d.locate path := by
      rw [locate, locate, hfollow, hfollow', step_insert h.directory hsibling]
    simp only [read, hlocate]
    cases hl : d.locate path with
    | error problem => rfl
    | ok l =>
      have hstep : d.step dir (String.ofList s.element) = .ok l := by
        rw [locate, hfollow] at hl
        split at hl
        · cases hl
        · exact hl
      simp only [node?_insert hat, if_neg (step_ne hsibling hstep)]

end

end Disk

namespace Manifest

/-- The default output of a path is another path. It has the same front, and as its last element
that of the input with the suffix in place of the extension. However often the default output is
taken, it is never a path that was there before, and a file written to it leaves what is read from
those paths, on every disk. -/
theorem defaultOutput_never_overwrites (input : String) :
    defaultOutput input ≠ input ∧
    (split (defaultOutput input)).front = (split input).front ∧
    (split (defaultOutput input)).element = (split input).stem ++ ".linked.cbor".toList ∧
    ∀ n k, defaultOutput^[n + k + 1] input ≠ defaultOutput^[n] input ∧
      ∀ (d : Disk) (bytes : List UInt8),
        (d.write (defaultOutput^[n + k + 1] input) bytes).2.read (defaultOutput^[n] input) =
          d.read (defaultOutput^[n] input) := by
  refine ⟨iterate_ne input 0 0, ?_, ?_, fun n k => ⟨iterate_ne input n k, fun d bytes => ?_⟩⟩
  · rw [split_defaultOutput, Path.Split.linked_front]
  · rw [split_defaultOutput, Path.Split.linked_element]
  · have hfront := (split_iterate input (n + k + 1)).1.trans (split_iterate input n).1.symm
    exact Disk.read_write_sibling _ _ hfront (iterate_ne input n k) bytes

-- no dot, a dot in a directory only, one at either end of the name, and an output as input
example : ["prog", "dir.v2/prog", "a.", "x/.hidden", "prog.linked.cbor"].map defaultOutput =
    ["prog.linked.cbor", "dir.v2/prog.linked.cbor", "a.linked.cbor", "x/.linked.cbor",
      "prog.linked.linked.cbor"] := by decide

end Manifest

end Linkage
