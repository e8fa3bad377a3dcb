import Linkage.Graph.Instruction

/-!
# Block graphs

The control-flow graphs of all bodies in one store. A block is straight-line code followed by an
ordered list of successors; blocks may be shared, and a block does not know its predecessors. Code
is built backwards from its continuation: an instruction is put in front of a block in place while
the block may still be merged into, and in a new block before it otherwise.

The building operations give the block they produce or the fault that stopped them, and in either
case the graph as they left it.
-/

namespace Linkage

/-- A block is known by its position in the store. -/
abbrev BlockRef := Nat

structure Block where
  /-- The identity under which listings show the block. -/
  id : Nat
  code : List Instruction
  succs : List (Option BlockRef)
  /-- Whether instructions may still be put in front in place. -/
  mergeable : Bool
  /-- Whether the block was made by the building operations. -/
  built : Bool := true
  deriving DecidableEq, Repr

namespace Block

def isPlaceholder (b : Block) : Bool := b.code == [.nop]

def isDeadLeaf (b : Block) : Bool := b.isPlaceholder && b.succs.isEmpty

end Block

structure Graph where
  blocks : Array Block := #[]
  calls : Array Call := #[]
  /-- The identities given out since the last reset. -/
  issued : Nat := 0
  deriving DecidableEq, Repr

namespace Graph

def setBlock (g : Graph) (r : BlockRef) (b : Block) : Graph :=
  { g with blocks := g.blocks.setIfInBounds r b }

def orPlaceholder : List Instruction → List Instruction
  | [] => [.nop]
  | code => code

def allocate (g : Graph) (code : List Instruction) (succs : List (Option BlockRef))
    (mergeable : Bool) : BlockRef × Graph :=
  (g.blocks.size,
    { g with
      blocks := g.blocks.push { id := g.issued, code := orPlaceholder code, succs, mergeable }
      issued := g.issued + 1 })

def resetIssued (g : Graph) : Graph := { g with issued := 0 }

def terminal (g : Graph) (i : Instruction) : BlockRef × Graph := g.allocate [i] [] true

/-- A placeholder that is never merged into, as the entry of a loop to be closed later. -/
def pivot (g : Graph) : BlockRef × Graph := g.allocate [] [] false

/-- A block made by none of the building operations: it has no code and no identity of its own. -/
def bare (g : Graph) : BlockRef × Graph :=
  let block : Block := { id := 0, code := [], succs := [], mergeable := false, built := false }
  (g.blocks.size, { g with blocks := g.blocks.push block })

def plain (g : Graph) (code : List Instruction) (succs : List (Option BlockRef)) :
    Except Fault BlockRef × Graph :=
  if succs.any Option.isNone then (.error .plainToNothing, g)
  else
    let (r, g) := g.allocate code succs true
    (.ok r, g)

/-- Puts an instruction in front of a block: in place while the block is mergeable, else in a new
block that leads to it. -/
def prefixedBy (g : Graph) (r : BlockRef) (i : Instruction) : Except Fault BlockRef × Graph :=
  match g.blocks[r]? with
  | none => (.error .absent, g)
  | some b =>
    if b.mergeable then (.ok r, g.setBlock r { b with code := i :: b.code })
    else if b.built then
      let (r, g) := g.allocate [i] [some r] true
      (.ok r, g)
    else (.error .absent, g)

/-- Puts instructions in front of a block, the last one first. -/
def sequence (g : Graph) (r : BlockRef) : List Instruction → Except Fault BlockRef × Graph
  | [] => (.ok r, g)
  | i :: code =>
    match g.sequence r code with
    | (.ok r, g) => g.prefixedBy r i
    | (.error f, g) => (.error f, g)

/-- A two-way branch. The test is put in front of `yes` and its negation in front of `no`, so each
outgoing edge is guarded by its own test; the branch itself is a placeholder. -/
def branch (g : Graph) (cond : Cond) (type : Ty) (yes no : Option BlockRef) :
    Except Fault BlockRef × Graph :=
  match yes, no with
  | some yes, some no =>
    match g.prefixedBy yes (.guard cond type) with
    | (.error f, g) => (.error f, g)
    | (.ok yes, g) =>
      match g.prefixedBy no (.guard cond.negate type) with
      | (.error f, g) => (.error f, g)
      | (.ok no, g) =>
        let (r, g) := g.allocate [] [some yes, some no] true
        (.ok r, g)
  | _, _ => (.error .branchToNothing, g)

def linkTo (g : Graph) (r : BlockRef) (succ : Option BlockRef) : Except Fault BlockRef × Graph :=
  match succ with
  | none => (.error .linkToNothing, g)
  | some s =>
    match g.blocks[r]? with
    | none => (.error .absent, g)
    | some b => (.ok r, g.setBlock r { b with succs := b.succs ++ [some s] })

def doNotMerge (g : Graph) (r : BlockRef) : Except Fault BlockRef × Graph :=
  match g.blocks[r]? with
  | none => (.error .absent, g)
  | some b => (.ok r, g.setBlock r { b with mergeable := false })

def removeFirst (g : Graph) (r : BlockRef) : Except Fault BlockRef × Graph :=
  match g.blocks[r]? with
  | none => (.error .absent, g)
  | some b => (.ok r, g.setBlock r { b with code := orPlaceholder (b.code.drop 1) })

/-- Takes the successor at a place away without closing the gap. -/
def cut (g : Graph) (r : BlockRef) (n : Nat) : Except Fault BlockRef × Graph :=
  match g.blocks[r]? with
  | none => (.error .absent, g)
  | some b =>
    if n < b.succs.length then (.ok r, g.setBlock r { b with succs := b.succs.set n none })
    else (.error (.outOfRange n b.succs.length), g)

/-! ### Calls -/

def addCall (g : Graph) (c : Call) : CallRef × Graph :=
  (g.calls.size, { g with calls := g.calls.push c })

def resolve (g : Graph) (site : CallRef) (targets : List (Option MemberId)) : Graph :=
  match g.calls[site]? with
  | none => g
  | some c => { g with calls := g.calls.setIfInBounds site { c with targets := some targets } }

end Graph

end Linkage
