import Linkage.Graph.Listing

/-!
# Programs

The bodies of a program and its members in reach. A registry says which methods and constructors
have a body; a program is an entry member together with what the last cleanup found.
-/

namespace Linkage

/-- The bodies of methods and constructors, each member at most once. A member may be registered
with no root block, which is not the same as not being registered. -/
abbrev Registry := List (MemberId × Option BlockRef)

namespace Registry

def find (code : Registry) (m : MemberId) : Option (Option BlockRef) := List.lookup m code

def body? (code : Registry) (m : MemberId) : Option BlockRef := (code.find m).join

def insert (code : Registry) (m : MemberId) (root : Option BlockRef) : Registry :=
  if code.any (·.1 == m) then code.map fun entry => if entry.1 == m then (m, root) else entry
  else code ++ [(m, root)]

def erase (code : Registry) (m : MemberId) : Registry := code.filter (·.1 != m)

end Registry

/-- What may be wrong with a graph. Defects are the fault of whatever produced it. -/
inductive DefectKind where
  | noEntry
  /-- The member whose code is missing is called from `caller`. -/
  | missingCode (caller : MemberId)
  | unresolvedCall
  | nilSuccessor
  | emptyBlock
  deriving DecidableEq, Repr

def DefectKind.text (d : Declarations) : DefectKind → String
  | .noEntry => "entry member has no code"
  | .missingCode caller =>
    "call target has no code (called from " ++ d.signatureText (some caller) ++ ")"
  | .unresolvedCall => "call targets were never resolved"
  | .nilSuccessor => "nil successor"
  | .emptyBlock => "block has no instructions"

structure Defect where
  kind : DefectKind
  member : Option MemberId
  block : Option BlockRef := none
  deriving DecidableEq, Repr

inductive Failure where
  | defect (d : Defect)
  | fault (f : Fault)
  deriving DecidableEq, Repr

def Defect.message (d : Declarations) (g : Graph) (defect : Defect) : String :=
  let place := match defect.block.bind (g.blocks[·]?) with
    | some b => ", block " ++ toString b.id
    | none => ""
  "ir: " ++ d.signatureText defect.member ++ place ++ ": " ++ defect.kind.text d

structure Program where
  entry : MemberId
  /-- The members in reach, in the order they were found. -/
  reachable : List MemberId := []
  /-- The blocks that the last cleanup processed, if it came to an end. -/
  visited : Nat := 0
  deriving DecidableEq, Repr

namespace Program

def reachableCode (d : Declarations) (p : Program) : List MemberId := p.reachable.filter d.isCode

def add (p : Program) (m : MemberId) : Bool × Program :=
  if p.reachable.contains m then (false, p)
  else (true, { p with reachable := p.reachable ++ [m] })

/-- The graph of a member in depth-first preorder; a member without an entry has none. -/
def blocks (code : Registry) (g : Graph) (m : MemberId) : Except Fault (List BlockRef) :=
  match code.find m with
  | none => .ok []
  | some root => g.walk root

end Program

end Linkage
