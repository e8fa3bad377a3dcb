import Linkage.Files.Disk
import Linkage.Manifest.Basic

/-!
# Finding manifests

A manifest applies to its directory and everything below, so it is looked for upwards. The nearest
one that is found counts, even if it cannot be read.
-/

namespace Linkage.Manifest

inductive LoadError where
  | unreadable (path : String) (e : FileError)
  | malformed (path : String) (e : ParseError)
  deriving DecidableEq, Repr

def LoadError.message : LoadError → String
  | .unreadable path e => "cannot read " ++ path ++ ": " ++ e.message
  | .malformed path e => "parse error in " ++ path ++ ": " ++ e.message

variable {m : Type → Type} [Monad m] [FileAccess m]

def load (dir : String) : m (Except LoadError Manifest) := do
  let path := Path.join dir fileName
  match ← FileAccess.read path with
  | .error e => return .error (.unreadable path e)
  | .ok bytes =>
    match parse bytes with
    | .error e => return .error (.malformed path e)
    | .ok manifest =>
      let cwd ← FileAccess.workingDirectory
      return .ok { manifest with dir := Path.absolute cwd dir }

def loadFirst : List String → m (Except LoadError (Option Manifest))
  | [] => return .ok none
  | dir :: rest => do
    if ← FileAccess.present (Path.join dir fileName) then
      return (← load dir).map some
    else loadFirst rest

/-- Looks for a manifest in a directory and those above it. -/
def findAndLoad (start : String) : m (Except LoadError (Option Manifest)) := do
  let cwd ← FileAccess.workingDirectory
  loadFirst (Path.ancestors (Path.absolute cwd start))

end Linkage.Manifest
