import Linkage.Program.Basic

/-!
# Cleanup

Cleanup walks every graph in reach of the entry, along successors and through calls. It drops the
successors that are dead leaves, and finds the members in reach: the entry, and every field and
callee that code in reach refers to. A block is processed once, however often it is met.

The walk keeps a stack of blocks to process. The successors of a block are on top of the bodies of
its callees, so a body is finished before the next one is entered.
-/

namespace Linkage

structure Frame where
  block : Option BlockRef
  member : MemberId
  deriving DecidableEq, Repr

structure Sweep where
  graph : Graph
  reachable : List MemberId
  seen : Array Bool
  /-- How many blocks were processed. -/
  count : Nat := 0
  stack : List Frame
  deriving DecidableEq, Repr

namespace Sweep

def isSeen (s : Sweep) (f : Frame) : Bool :=
  match f.block with
  | some r => s.seen.getD r false
  | none => false

def reach (s : Sweep) (m : MemberId) : Sweep :=
  if s.reachable.contains m then s else { s with reachable := s.reachable ++ [m] }

def push (s : Sweep) (block : Option BlockRef) (member : MemberId) : Sweep :=
  { s with stack := ⟨block, member⟩ :: s.stack }

def enter (s : Sweep) (m : MemberId) (root : Option BlockRef) : Sweep := (s.reach m).push root m

/-- Enters the targets of a call in order, up to the first one that has no code. -/
def enterTargets (code : Registry) (f : Frame) (s : Sweep) :
    List (Option MemberId) → Sweep × Option Failure
  | [] => (s, none)
  | target :: rest =>
    match target, target.bind code.body? with
    | some m, some root => (s.enter m (some root)).enterTargets code f rest
    | target, _ => (s, some (.defect ⟨.missingCode f.member, target, f.block⟩))

/-- A call that nothing can dispatch to keeps its static callee, if that is registered. -/
def enterCallee (code : Registry) (s : Sweep) (callee : Option MemberId) : Sweep :=
  match callee, callee.bind code.find with
  | some m, some root => s.enter m root
  | _, _ => s

def recordCall (code : Registry) (f : Frame) (s : Sweep) (c : Call) : Sweep × Option Failure :=
  match c.targets with
  | none => (s, some (.defect ⟨.unresolvedCall, some f.member, f.block⟩))
  | some [] => (s.enterCallee code c.callee, none)
  | some targets => s.enterTargets code f targets

def record (code : Registry) (f : Frame) (s : Sweep) (i : Instruction) : Sweep × Option Failure :=
  match i with
  | .getField m | .putField m => (s.reach m, none)
  | .call site =>
    match s.graph.calls[site]? with
    | some c => s.recordCall code f c
    | none => (s, some (.fault .absent))
  | _ => (s, none)

def recordAll (code : Registry) (f : Frame) (s : Sweep) : List Instruction → Sweep × Option Failure
  | [] => (s, none)
  | i :: rest =>
    match s.record code f i with
    | (s, none) => s.recordAll code f rest
    | (s, some failure) => (s, some failure)

/-- The successors that are no dead leaves, if every successor is there. -/
def kept (g : Graph) : List (Option BlockRef) → Option (List BlockRef)
  | [] => some []
  | none :: _ => none
  | some r :: rest =>
    (kept g rest).map fun succs =>
      if (g.blocks[r]?).any Block.isDeadLeaf then succs else r :: succs

/-- Processes a block: prunes its successors, records its instructions, and schedules what is left
of its successors, the first one on top. -/
def visit (code : Registry) (s : Sweep) (f : Frame) (r : BlockRef) (b : Block) :
    Sweep × Option Failure :=
  let s := { s with seen := s.seen.setIfInBounds r true, count := s.count + 1 }
  if b.code.isEmpty then (s, some (.defect ⟨.emptyBlock, some f.member, some r⟩))
  else match kept s.graph b.succs with
    | none => (s, some (.defect ⟨.nilSuccessor, some f.member, some r⟩))
    | some succs =>
      let s := { s with graph := s.graph.setBlock r { b with succs := succs.map some } }
      match s.recordAll code f b.code with
      | (s, some failure) => (s, some failure)
      | (s, none) =>
        ({ s with stack := succs.map (fun r => ⟨some r, f.member⟩) ++ s.stack }, none)

def step (code : Registry) (s : Sweep) : Option (Sweep × Option Failure) :=
  match s.stack.dropWhile s.isSeen with
  | [] => none
  | f :: stack =>
    match f.block, f.block.bind (s.graph.blocks[·]?) with
    | some r, some b => some (visit code { s with stack } f r b)
    | _, _ => some (s, some (.fault .absent))

/-- Processes blocks until none is left on the stack. Every step processes a block that was not
seen before, so as many steps as there are blocks are enough. -/
def run (code : Registry) : (steps : Nat) → Sweep → Sweep × Option Failure
  | steps, s =>
    match steps, s.step code with
    | _, none => ({ s with stack := [] }, none)
    | 0, some _ => ({ s with stack := [] }, some (.fault .absent))
    | steps + 1, some (s, none) => run code steps s
    | _ + 1, some (s, some failure) => ({ s with stack := [] }, some failure)

def start (g : Graph) (entry : MemberId) (root : BlockRef) : Sweep :=
  { graph := g, reachable := [entry], seen := g.unseen, stack := [⟨some root, entry⟩] }

end Sweep

structure Cleaned where
  graph : Graph
  program : Program
  failure : Option Failure
  deriving DecidableEq, Repr

namespace Program

/-- Finds the members in reach afresh. After a failure the program holds those found so far. -/
def cleanup (code : Registry) (g : Graph) (p : Program) : Cleaned :=
  match code.body? p.entry with
  | none =>
    ⟨g, ⟨p.entry, [p.entry], 0⟩, some (.defect { kind := .noEntry, member := some p.entry })⟩
  | some root =>
    match (Sweep.start g p.entry root).run code g.blocks.size with
    | (s, none) => ⟨s.graph, ⟨p.entry, s.reachable, s.count⟩, none⟩
    | (s, some failure) => ⟨s.graph, ⟨p.entry, s.reachable, 0⟩, some failure⟩

def create (code : Registry) (g : Graph) (entry : Option MemberId) :
    Except Failure Program × Graph :=
  match entry with
  | none => (.error (.defect { kind := .noEntry, member := none }), g)
  | some m =>
    match cleanup code g { entry := m } with
    | ⟨g, p, none⟩ => (.ok p, g)
    | ⟨g, _, some failure⟩ => (.error failure, g)

end Program

end Linkage
