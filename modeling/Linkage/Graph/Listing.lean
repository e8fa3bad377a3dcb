import Linkage.Graph.Basic

/-!
# Listings

The blocks of a body in depth-first preorder, and the text of a block.
-/

namespace Linkage.Graph

/-- Walks on from the references on the stack, skipping blocks already seen. Every step lists a
block that was not seen before, so as many steps as there are blocks are enough. The blocks listed
so far are `found`, the latest first. -/
def walkFrom (g : Graph) (steps : Nat) (seen : Array Bool) (found stack : List BlockRef) :
    Except Fault (List BlockRef) :=
  match stack.dropWhile (seen.getD · false) with
  | [] => .ok found.reverse
  | r :: rest =>
    match steps, g.blocks[r]? with
    | steps + 1, some b =>
      g.walkFrom steps (seen.setIfInBounds r true) (r :: found) (b.succs.filterMap id ++ rest)
    | _, _ => .error .absent
termination_by structural steps

def unseen (g : Graph) : Array Bool := Array.replicate g.blocks.size false

/-- The graph below `root` in depth-first preorder, successors left to right, each block once. -/
def walk (g : Graph) : Option BlockRef → Except Fault (List BlockRef)
  | none => .error .absent
  | some root => g.walkFrom g.blocks.size g.unseen [] [root]

def dumpBlock (g : Graph) (d : Declarations) (b : Block) : Except Fault String := do
  let lines ← b.code.mapM (Instruction.name d g.calls)
  return "\n".intercalate (("block " ++ toString b.id) :: lines)

def dump (g : Graph) (d : Declarations) (r : BlockRef) : Except Fault String :=
  match g.blocks[r]? with
  | none => .error .absent
  | some b => g.dumpBlock d b

end Linkage.Graph
