import Linkage.Command.Run

/-!
# The program

Runs a command line on the files of the machine.
-/

namespace Linkage

/-- Error codes may come with either sign. -/
private def isCode (code n : UInt32) : Bool := code == n || code == 0 - n

private def problemOf : IO.Error → FileProblem
  | .noFileOrDirectory .. => .notFound
  | .inappropriateType _ code _ => if isCode code 20 then .notDirectory else .isDirectory
  | .invalidArgument _ code _ => if isCode code 36 then .nameTooLong else .invalidName
  | e => .other e.toString

instance : FileAccess IO where
  workingDirectory := do return (← IO.currentDir).toString
  present path := do
    -- a file that may not be read is there all the same, so it is looked up and not opened
    try
      let _ ← IO.FS.realPath path
      return true
    catch _ => return false
  read path := do
    try return .ok (← IO.FS.readBinFile path).toList
    catch e =>
      match problemOf e with
      | .isDirectory => return .error (.reading path .isDirectory)
      | p => return .error (.opening path p)
  write path bytes := do
    try
      IO.FS.writeBinFile path ⟨bytes.toArray⟩
      return .ok ()
    catch e => return .error (.opening path (problemOf e))
  extend path := do
    try
      let _ ← IO.FS.Handle.mk path .append
      return .ok ()
    catch e => return .error (.opening path (problemOf e))

private def randomId : IO RunId := do
  let bytes ← IO.getRandomBytes 16
  return ⟨bytes.toList.mapIdx fun i b =>
    if i = 6 then b &&& 0x0f ||| 0x40 else if i = 8 then b &&& 0x3f ||| 0x80 else b⟩

end Linkage

def main (arguments : List String) : IO UInt32 := do
  match ← Linkage.Command.run arguments (← Linkage.randomId) with
  | .ok outcome =>
    IO.print outcome.stdout
    IO.eprint outcome.stderr
    return UInt32.ofNat outcome.exit
  | .error fault =>
    IO.eprintln ("panic: " ++ fault.message)
    return 2
