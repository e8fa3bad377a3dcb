import Linkage.Files.Path

/-!
# Files

The access to files that the commands need, and a disk on which it is defined: a tree of directories
and files, each known by the names that lead to it from the root.
-/

namespace Linkage

inductive FileProblem where
  | notFound
  | notDirectory
  | isDirectory
  | invalidName
  | nameTooLong
  | other (text : String)
  deriving DecidableEq, Repr

def FileProblem.text : FileProblem → String
  | .notFound => "no such file or directory"
  | .notDirectory => "not a directory"
  | .isDirectory => "is a directory"
  | .invalidName => "invalid argument"
  | .nameTooLong => "file name too long"
  | .other text => text

/-- A failed operation on a path. A directory can be opened like a file, but not read. -/
inductive FileError where
  | opening (path : String) (problem : FileProblem)
  | reading (path : String) (problem : FileProblem)
  deriving DecidableEq, Repr

def FileError.message : FileError → String
  | .opening path problem => "open " ++ path ++ ": " ++ problem.text
  | .reading path problem => "read " ++ path ++ ": " ++ problem.text

class FileAccess (m : Type → Type) where
  workingDirectory : m String
  /-- Whether there is a file or directory at a path. -/
  present : String → m Bool
  read : String → m (Except FileError (List UInt8))
  /-- Replaces the content of a file, or creates it in an existing directory. -/
  write : String → List UInt8 → m (Except FileError Unit)
  /-- Opens a file for writing at its end: it is created if it is not there, and else stays as it
  is. What would then be written is not modelled. -/
  extend : String → m (Except FileError Unit)

/-! ### Disks -/

inductive Node where
  | file (bytes : List UInt8)
  | directory
  deriving DecidableEq, Repr

/-- The names that lead to a node from the root. -/
abbrev Location := List String

structure Disk where
  /-- The nodes below the root, each at most once. -/
  nodes : List (Location × Node) := []
  cwd : Location := []
  deriving DecidableEq, Repr

namespace Disk

def node? (d : Disk) (at_ : Location) : Option Node :=
  if at_ = [] then some .directory else d.nodes.lookup at_

def insert (d : Disk) (at_ : Location) (n : Node) : Disk :=
  if d.nodes.any (·.1 == at_) then
    { d with nodes := d.nodes.map fun entry => if entry.1 == at_ then (at_, n) else entry }
  else { d with nodes := d.nodes ++ [(at_, n)] }

def makeDirectories (d : Disk) (at_ : Location) : Disk :=
  ((List.range at_.length).map fun n => at_.take (n + 1)).foldl (fun d dir =>
    match d.node? dir with
    | some _ => d
    | none => d.insert dir .directory) d

/-- A name in a directory has fewer bytes than this. -/
def nameLimit : Nat := 256

/-- A path as a whole has fewer bytes than this. -/
def pathLimit : Nat := 4096

def step (d : Disk) (at_ : Location) (name : String) : Except FileProblem Location :=
  match d.node? at_ with
  | none => .error .notFound
  | some (.file _) => .error .notDirectory
  | some .directory =>
    if name = "" ∨ name = "." then .ok at_
    else if name = ".." then .ok at_.dropLast
    else if nameLimit ≤ name.utf8ByteSize then .error .nameTooLong
    else if (d.node? (at_ ++ [name])).isSome then .ok (at_ ++ [name])
    else .error .notFound

def follow (d : Disk) (at_ : Location) : List String → Except FileProblem Location
  | [] => .ok at_
  | name :: rest =>
    match d.step at_ name with
    | .ok next => d.follow next rest
    | .error problem => .error problem

def names (path : String) : List String := (Path.parts path.toList).map String.ofList

def origin (d : Disk) (path : String) : Location := if Path.isAbsolute path then [] else d.cwd

/-- What is wrong with a path on any disk. -/
def pathProblem? (path : String) : Option FileProblem :=
  if path.isEmpty then some .notFound
  else if path.toList.contains (Char.ofNat 0) then some .invalidName
  else if pathLimit ≤ path.utf8ByteSize then some .nameTooLong
  else none

def locate (d : Disk) (path : String) : Except FileProblem Location :=
  match pathProblem? path with
  | some problem => .error problem
  | none => d.follow (d.origin path) (names path)

/-- The place of an existing file or of one to be created: its directory has to exist. -/
def target (d : Disk) (path : String) : Except FileProblem Location :=
  match pathProblem? path with
  | some problem => .error problem
  | none =>
    let all := names path
    let last := (all.reverse.dropWhile String.isEmpty).reverse
    match last.getLast? with
    | none => .error .isDirectory
    | some name => do
      let dir ← d.follow (d.origin path) last.dropLast
      let _ ← d.step dir "."
      if last.length ≠ all.length ∨ name = "." ∨ name = ".." then throw .isDirectory
      else if nameLimit ≤ name.utf8ByteSize then throw .nameTooLong
      else if d.node? (dir ++ [name]) = some .directory then throw .isDirectory
      else return dir ++ [name]

def cwdPath (d : Disk) : String := "/" ++ "/".intercalate d.cwd

def present (d : Disk) (path : String) : Bool := (d.locate path).toOption.isSome

def read (d : Disk) (path : String) : Except FileError (List UInt8) :=
  match d.locate path with
  | .error problem => .error (.opening path problem)
  | .ok at_ =>
    match d.node? at_ with
    | some (.file bytes) => .ok bytes
    | some .directory => .error (.reading path .isDirectory)
    | none => .error (.opening path .notFound)

/-- Either the whole content is written, or the disk stays as it was. -/
def write (d : Disk) (path : String) (bytes : List UInt8) : Except FileError Unit × Disk :=
  match d.target path with
  | .error problem => (.error (.opening path problem), d)
  | .ok at_ => (.ok (), d.insert at_ (.file bytes))

def extend (d : Disk) (path : String) : Except FileError Unit × Disk :=
  match d.target path with
  | .error problem => (.error (.opening path problem), d)
  | .ok at_ => (.ok (), if (d.node? at_).isSome then d else d.insert at_ (.file []))

instance : FileAccess (StateM Disk) where
  workingDirectory := do return (← get).cwdPath
  present path := do return (← get).present path
  read path := do return (← get).read path
  write path bytes := modifyGet fun d => d.write path bytes
  extend path := modifyGet fun d => d.extend path

end Disk

end Linkage
