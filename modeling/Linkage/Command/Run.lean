import Linkage.Command.Flags
import Linkage.Image.Decode
import Linkage.Image.Encode
import Linkage.Manifest.Discovery
import Linkage.Session

/-!
# Commands

The command line: `link` removes what is not reachable from an image, and `dump` prints the blocks
of an image. A command reads its manifest and its image before it writes anything, and it writes at
most one file, as its last step that may fail. Only a log file is opened before. The lines that are
logged are left out here: all that is said of a log is that it is created.
-/

namespace Linkage.Command

/-- What a command line leads to, besides what it does to files. -/
structure Outcome where
  exit : Nat
  stdout : String := ""
  stderr : String := ""
  deriving DecidableEq, Repr

inductive CommandError where
  | flags (command : String) (e : FlagError)
  | argumentCount (command : String) (count : Nat)
  | manifest (e : Manifest.LoadError)
  | log (e : FileError)
  | file (e : FileError)
  | image (path : String) (e : DecodeError)
  | find (e : FindError)
  /-- A failure that is told by a message of its own. -/
  | told (message : String)
  | fault (f : Fault)
  deriving DecidableEq, Repr

def decodeText : DecodeError → String
  | .bytes => "wire: unmarshal image: not an image"
  | .malformed reason => reason.message

def CommandError.message : CommandError → String
  | .flags _ e => e.message?.getD ""
  | .argumentCount command n =>
    command ++ " expects exactly one image, got " ++ toString n
  | .manifest e => e.message
  | .log e => "log file error: " ++ e.message
  | .file e => e.message
  | .image path e => path ++ ": " ++ decodeText e
  | .find e => e.message
  | .told message => message
  | .fault f => f.message

/-! ### Options -/

structure Options where
  input : String
  /-- The member to start from, or nothing for the entry of the image. -/
  entry : String
  output : String
  /-- How much is logged, and where to if not to the terminal. -/
  verbosity : Int
  logPath : Option String
  deriving DecidableEq, Repr

def Options.ofFlags (flags : Flags) (input : String) (manifest : Option Manifest) : Options where
  input
  entry := flags.entry.getD ((manifest.map (·.entry)).getD "")
  output := flags.output.getD (Manifest.outputPath manifest input)
  verbosity := flags.verbosity.getD ((manifest.map (·.verbosity)).getD 0)
  logPath := Manifest.logPath manifest

/-- The file that log lines go to, if any are logged at all. -/
def Options.logFile? (o : Options) : Option String := if -4 < o.verbosity then o.logPath else none

variable {m : Type → Type} [Monad m] [FileAccess m]

abbrev Step (m : Type → Type) := ExceptT CommandError m

/-- The manifest of the directory that a flag names, or else the nearest one upwards. -/
def configured (config : Option String) : m (Except Manifest.LoadError (Option Manifest)) := do
  let dir := config.getD ""
  if dir.isEmpty then Manifest.findAndLoad "." else return (← Manifest.load dir).map some

def findManifest (config : Option String) : Step m (Option Manifest) := do
  match ← (configured config : m _) with
  | .ok manifest => return manifest
  | .error e => throw (.manifest e)

def openLog (path : Option String) : Step m Unit := do
  match path with
  | none => return ()
  | some path =>
    match ← (FileAccess.extend path : m _) with
    | .ok () => return ()
    | .error e => throw (.log e)

/-- The settings of a command line. The log is open once they are known. -/
def options (command : String) (arguments : List String) : Step m Options := do
  match Flags.parse arguments with
  | .error e => throw (.flags command e)
  | .ok flags =>
    match flags.arguments with
    | [input] =>
      let options := Options.ofFlags flags input (← findManifest flags.config)
      openLog options.logFile?
      return options
    | inputs => throw (.argumentCount command inputs.length)

def loadUnit (path : String) : Step m LinkUnit := do
  match ← (FileAccess.read path : m _) with
  | .error e => throw (.file e)
  | .ok bytes =>
    match (LinkUnit.decode bytes 0).1 with
    | .ok u => return u
    | .error e => throw (.image path e)

/-! ### Linking -/

def entryOf (u : LinkUnit) (name : String) : Except CommandError MemberId :=
  if name.isEmpty then .ok u.entry
  else match u.find name with
    | .ok entry => .ok entry
    | .error e => .error (.find e)

def linkUnit (u : LinkUnit) (entry : MemberId) (runId : RunId) :
    Except CommandError (Program × List UInt8) :=
  match Program.create u.code u.graph (some entry) with
  | (.error (.fault f), _) => .error (.fault f)
  | (.error (.defect defect), g) => .error (.told (defect.message u.declarations g))
  | (.ok p, g) =>
    match Image.encodeProgram u.declarations g u.code p runId with
    | .ok bytes => .ok (p, bytes)
    | .error (.fault f) => .error (.fault f)
    | .error e => .error (.told (e.message u.declarations))

def summary (u : LinkUnit) (p : Program) (output : String) : String :=
  let d := u.declarations
  let line (m : MemberId) : String := "  " ++ d.signatureText (some m) ++ "\n"
  "linked from " ++ d.signatureText (some p.entry) ++ "\n" ++ String.join (p.reachable.map line) ++
    "kept " ++ toString (p.reachableCode d).length ++ " of " ++ toString u.code.length ++
    " bodies, " ++ toString p.visited ++ " blocks; wrote " ++ output ++ "\n"

def link (arguments : List String) (runId : RunId) : Step m String := do
  let options ← options "link" arguments
  let u ← loadUnit options.input
  let entry ← entryOf u options.entry
  let (p, bytes) ← linkUnit u entry runId
  match ← (FileAccess.write options.output bytes : m _) with
  | .ok () => return summary u p options.output
  | .error e => throw (.file e)

/-! ### Dumping -/

def dumpBlock (u : LinkUnit) (r : BlockRef) : Except Fault String := do
  let text ← u.graph.dump u.declarations r
  let succs := ((u.graph.blocks[r]?).map (·.succs)).getD []
  let ids ← succs.mapM fun succ =>
    match succ.bind (u.graph.blocks[·]?) with
    | some b => .ok (" " ++ toString b.id)
    | none => .error .absent
  return text ++ "\n" ++ if ids.isEmpty then "" else "  ->" ++ String.join ids ++ "\n"

def dumpBody (u : LinkUnit) (m : MemberId) : Except Fault String := do
  let blocks ← u.graph.walk (u.code.body? m)
  let texts ← blocks.mapM (dumpBlock u)
  return "\n" ++ u.declarations.signatureText (some m) ++ "\n" ++ String.join texts

def dumpUnit (u : LinkUnit) : Except Fault String := do
  let state := if u.linked then "linked" else "unlinked"
  let bodies ← (← u.code.ordered u.declarations (some u.entry)).mapM (dumpBody u)
  return state ++ " image, entry " ++ u.declarations.signatureText (some u.entry) ++ "\n" ++
    String.join bodies

def dump (arguments : List String) : Step m String := do
  let options ← options "dump" arguments
  let u ← loadUnit options.input
  match dumpUnit u with
  | .ok text => return text
  | .error f => throw (.fault f)

/-! ### The command line -/

def usage : String :=
  "Usage: tabby <command> [options] image.cbor\n\n" ++
  "Commands:\n" ++
  "  link   Remove unreachable code and write the linked image\n" ++
  "  dump   Print the blocks of every body in an image\n" ++
  "\nExamples:\n" ++
  "  tabby link prog.cbor                     # writes prog.linked.cbor\n" ++
  "  tabby link -entry Main.main -o out.cbor prog.cbor\n" ++
  "  tabby dump prog.linked.cbor\n"

/-- What a failed command prints. Only faults are not told here. -/
def failed (e : CommandError) : Except Fault Outcome :=
  let line := "Error: " ++ e.message ++ "\n"
  match e with
  | .fault f => .error f
  | .flags command .help => .ok { exit := 0, stderr := flagUsage command }
  | .flags command _ => .ok { exit := 2, stderr := e.message ++ "\n" ++ flagUsage command ++ line }
  | .argumentCount _ _ => .ok { exit := 2, stderr := line }
  | .log _ => .ok { exit := 1, stderr := e.message ++ "\n" }
  | _ => .ok { exit := 1, stderr := line }

def finish (step : Step m String) : m (Except Fault Outcome) := do
  match ← step.run with
  | .ok stdout => return .ok { exit := 0, stdout }
  | .error e => return failed e

/-- Runs a command line. What it logs is not part of the outcome, and is not written to the log. -/
def run (arguments : List String) (runId : RunId) : m (Except Fault Outcome) :=
  match arguments with
  | [] => return .ok { exit := 2, stderr := usage }
  | "link" :: rest => finish (link rest runId)
  | "dump" :: rest => finish (dump rest)
  | command :: _ =>
    if ["-h", "-help", "--help", "help"].contains command then
      return .ok { exit := 0, stdout := usage }
    else
      let line := "unknown command " ++ Quoted.ofString command ++ "\n\n"
      return .ok { exit := 2, stderr := line ++ usage }

end Linkage.Command
