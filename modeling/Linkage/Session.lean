import Linkage.Checking
import Linkage.Program.Cleanup
import Linkage.RunId

/-!
# Sessions

What one run shares: the symbol table, the block graph and the diagnostics. Independent runs use
sessions of their own, or reset one in between.
-/

namespace Linkage

structure Session where
  id : RunId
  symbols : SymbolTable := {}
  graph : Graph := {}
  reporter : Reporter := {}
  deriving DecidableEq, Repr

inductive LinkError where
  | sourceErrors (count : Nat)
  | failure (f : Failure)
  deriving DecidableEq, Repr

def LinkError.sourceText (count : Nat) : String :=
  if count = 1 then "1 error reported; not linking"
  else toString count ++ " errors reported; not linking"

namespace Session

/-- Forgets all symbols, restarts the identities of blocks, clears the errors and takes a new
identifier. -/
def reset (s : Session) (id : RunId) : Session :=
  { id, symbols := s.symbols.reset, graph := s.graph.resetIssued, reporter := s.reporter.reset }

def intern (s : Session) (name : String) : Symbol × Session :=
  let (x, symbols) := s.symbols.intern name
  (x, { s with symbols })

def checker (file : String) (text : List UInt8) (returnType : Ty) (assertions : Bool) : Context :=
  { returnType, sink := Sink.ofText file text, assertions }

/-- Links the program that starts at `entry`, unless source errors were reported. -/
def link (s : Session) (code : Registry) (entry : Option MemberId) :
    Except LinkError Program × Session :=
  if s.reporter.hasErrors then (.error (.sourceErrors s.reporter.count), s)
  else match Program.create code s.graph entry with
    | (.ok p, graph) => (.ok p, { s with graph })
    | (.error f, graph) => (.error (.failure f), { s with graph })

end Session

end Linkage
