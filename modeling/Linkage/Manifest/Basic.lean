import Linkage.Files.Path
import Linkage.Toml.Document

/-!
# Manifests

The settings of a project: its name, the member that linking starts from, where output goes, and how
much is logged. Names of sections and settings may be written in any case.
-/

namespace Linkage

structure Manifest where
  name : String := ""
  /-- The member that linking starts from, or nothing for the entry of the image. -/
  entry : String := ""
  /-- Where the linked image goes, as seen from `dir`. -/
  output : String := ""
  verbosity : Int := 0
  /-- Where log lines go, as seen from `dir`. -/
  logFile : String := ""
  /-- The directory that holds the manifest. -/
  dir : String := ""
  deriving DecidableEq, Repr

namespace Manifest

def fileName : String := "tabby.toml"

/-! ### Settings -/

inductive Setting where
  | name
  | entry
  | output
  | verbosity
  | logFile
  deriving DecidableEq, Repr

def sections : List (String × List (String × Setting)) :=
  [("project", [("name", .name)]),
   ("link", [("entry", .entry), ("output", .output)]),
   ("log", [("verbosity", .verbosity), ("file", .logFile)])]

/-- The lower-case letter that a character is a variant of. -/
def fold (c : Char) : Char :=
  if c = Char.ofNat 0x212a then 'k' else if c = Char.ofNat 0x17f then 's' else c.toLower

/-- Whether a name is that of a section or setting, in any case. -/
def isNamed (name key : String) : Bool := key.toList.map fold == name.toList

def lookupNamed {α : Type} (key : String) (named : List (String × α)) : Option α :=
  (named.find? fun e => isNamed e.1 key).map (·.2)

def set (m : Manifest) (s : Setting) (v : Toml.Value) : Option Manifest :=
  match s, v with
  | .name, .scalar (.string s) => some { m with name := s }
  | .entry, .scalar (.string s) => some { m with entry := s }
  | .output, .scalar (.string s) => some { m with output := s }
  | .verbosity, .scalar (.integer n) => some { m with verbosity := n }
  | .logFile, .scalar (.string s) => some { m with logFile := s }
  | _, _ => none

structure Reading where
  manifest : Manifest := {}
  understood : List Toml.Key := []

def readSection (sec : String) (settings : List (String × Setting)) (r : Reading) :
    Toml.Table → Option Reading
  | [] => some r
  | (key, v) :: rest =>
    match lookupNamed key settings with
    | none => readSection sec settings r rest
    | some s => do
      let manifest ← r.manifest.set s v
      readSection sec settings ⟨manifest, r.understood ++ [[sec, key]]⟩ rest

def readSections (doc : Toml.Document) (r : Reading) : Toml.Table → Option Reading
  | [] => some r
  | (key, v) :: rest =>
    match lookupNamed key sections, v with
    | none, _ => readSections doc r rest
    | some settings, .table id => do
      let r := { r with understood := r.understood ++ [[key]] }
      readSections doc (← readSection key settings r (doc.table id)) rest
    | some _, _ => none

/-! ### Parsing -/

inductive ParseError where
  /-- The text is no document, or a setting is of the wrong kind. -/
  | invalid
  | unknownKeys (keys : List Toml.Key)
  | verbosity (n : Int)
  deriving DecidableEq, Repr

def ParseError.message : ParseError → String
  | .invalid => "toml: invalid document"
  | .unknownKeys keys => "unknown keys: " ++ ", ".intercalate (keys.map Toml.Key.text)
  | .verbosity n => "log.verbosity " ++ toString n ++ " is below -1"

/-- Reads a manifest. Unknown keys are refused, so that a misspelt name does not go unnoticed. -/
def parse (bytes : List UInt8) : Except ParseError Manifest :=
  match (Toml.Document.parse? bytes).bind fun doc => (readSections doc {} doc.top).map (doc, ·) with
  | none => .error .invalid
  | some (doc, r) =>
    match doc.keys.filter fun k => !r.understood.contains k with
    | [] =>
      if r.manifest.verbosity < -1 then .error (.verbosity r.manifest.verbosity) else .ok r.manifest
    | unknown => .error (.unknownKeys unknown)

/-! ### Where output goes -/

def resolve (m : Manifest) (path : String) : String :=
  if Path.isAbsolute path then path else Path.join m.dir path

def defaultOutput (input : String) : String := Path.replaceExtension input ".linked.cbor"

def outputPath (m : Option Manifest) (input : String) : String :=
  match m with
  | some m => if m.output.isEmpty then defaultOutput input else m.resolve m.output
  | none => defaultOutput input

def logPath (m : Option Manifest) : Option String :=
  m.bind fun m => if m.logFile.isEmpty then none else some (m.resolve m.logFile)

end Manifest

end Linkage
