import Linkage.Image.Bytes
import Linkage.Program.Cleanup
import Linkage.RunId

/-!
# Encoding programs

A program is written as an image by giving positions to its classes, members and blocks in the order
in which they are met: the entry first, then body after body.
-/

namespace Linkage

inductive EncodeError where
  | noRoot (member : MemberId)
  | nilSuccessor (member : MemberId) (blockId : Nat)
  | fault (f : Fault)
  deriving DecidableEq, Repr

def EncodeError.message (d : Declarations) : EncodeError → String
  | .noRoot m => "wire: " ++ d.signatureText (some m) ++ " has no root block"
  | .nilSuccessor m id =>
    "wire: " ++ d.signatureText (some m) ++ ": block " ++ toString id ++ " has a nil successor"
  | .fault f => f.message

/-- Members by printed signature. A single one is not printed. -/
def Declarations.bySignature (d : Declarations) : List MemberId → Except Fault (List MemberId)
  | [] => return []
  | [m] => return [m]
  | ms => do
    let named ← ms.mapM fun m => (d.signature m).map fun name => (name, m)
    return (named.mergeSort fun a b => !decide (b.1 < a.1)).map (·.2)

def Registry.ordered (d : Declarations) (code : Registry) (entry : Option MemberId) :
    Except Fault (List MemberId) := do
  let sorted ← d.bySignature ((code.map (·.1)).filter fun m => some m != entry)
  match entry with
  | some m => return if (code.find m).isSome then m :: sorted else sorted
  | none => return sorted

namespace Image

structure Encoder where
  classIds : List ClassId := []
  classes : Array Class := #[]
  memberIds : List MemberId := []
  members : Array Member := #[]
  /-- The position of each block of the graph. -/
  positions : Array (Option Nat)
  blocks : Array Block := #[]

abbrev Encode := StateT Encoder (Except EncodeError)

namespace Encoder

def position (n : Nat) : Int64 := Int64.ofNat n

/-- The position of the first of a class and its superclasses, given as a list upwards. -/
def placeClasses (d : Declarations) : List ClassId → Encode Nat
  | [] => throw (.fault .absent)
  | c :: supers => do
    let s ← get
    match s.classIds.idxOf? c, d.classes[c]? with
    | some i, _ => return i
    | none, none => throw (.fault .absent)
    | none, some k =>
      let i := s.classes.size
      set { s with classIds := s.classIds ++ [c], classes := s.classes.push { name := k.name } }
      if supers.isEmpty then return i
      else
        let above ← placeClasses d supers
        modify fun s => { s with
          classes := s.classes.setIfInBounds i { name := k.name, super := position (above + 1) } }
        return i

def placeClass (d : Declarations) (c : ClassId) : Encode Nat := placeClasses d (d.ancestry c)

/-- A type in the notation of images: a primitive by its name, a class by `@` and its position, an
array by `[` and its element type, and no type by nothing. -/
def placeType (d : Declarations) : Ty → Encode String
  | .absent => return ""
  | .primitive p => return p.name
  | .object c => return "@" ++ toString (← placeClass d c)
  | .array t => return "[" ++ (← placeType d t)

def nonempty {α : Type} (xs : List α) : Option (List α) :=
  if xs.isEmpty then none else some xs

def memberEntry (d : Declarations) : Linkage.Member → Encode Member
  | .field c name t => do
    let owner ← placeClass d c
    return { kind := fieldKind, owner := position owner, name, type := ← placeType d t }
  | .method c name ps t => do
    let owner ← placeClass d c
    let type ← placeType d t
    let params ← ps.mapM (placeType d)
    return { kind := methodKind, owner := position owner, name, type, params := nonempty params }
  | .ctor c ps => do
    let owner ← placeClass d c
    let params ← ps.mapM (placeType d)
    return { kind := ctorKind, owner := position owner, params := nonempty params }

def placeMember (d : Declarations) : Option MemberId → Encode Nat
  | none => throw (.fault .absentSignature)
  | some m => do
    match (← get).memberIds.idxOf? m, d.members[m]? with
    | some i, _ => return i
    | none, none => throw (.fault .absentSignature)
    | none, some member =>
      let entry ← memberEntry d member
      let s ← get
      set { s with memberIds := s.memberIds ++ [m], members := s.members.push entry }
      return s.members.size

def reference (d : Declarations) (m : Option MemberId) : Encode Int64 :=
  return position ((← placeMember d m) + 1)

def constantEntry (type : String) : Constant → Instr
  | .nil => { op := Op.const, type }
  | .int n => { op := Op.const, type, int := n }
  | .float x => { op := Op.const, type, float := x }
  | .bool b => { op := Op.const, type, bool := b }
  | .string bytes => { op := Op.const, type, str := bytes }

def instrEntry (d : Declarations) (calls : Array Call) : Instruction → Encode Instr
  | .nop => return { op := Op.nop }
  | .const t value => return constantEntry (← placeType d t) value
  | .load slot t => return { op := Op.load, slot, type := ← placeType d t }
  | .store slot t => return { op := Op.store, slot, type := ← placeType d t }
  | .arith o t => return { op := Op.arith, sub := o.code, type := ← placeType d t }
  | .neg t => return { op := Op.neg, type := ← placeType d t }
  | .not => return { op := Op.not }
  | .compare c t => return { op := Op.compare, sub := c.code, type := ← placeType d t }
  | .dup t => return { op := Op.dup, type := ← placeType d t }
  | .pop t => return { op := Op.pop, type := ← placeType d t }
  | .new c => return { op := Op.new, type := ← placeType d (.object c) }
  | .newArray t => return { op := Op.newArray, type := ← placeType d t }
  | .arrayLoad t => return { op := Op.arrayLoad, type := ← placeType d t }
  | .arrayStore t => return { op := Op.arrayStore, type := ← placeType d t }
  | .getField m => return { op := Op.getField, member := ← reference d (some m) }
  | .putField m => return { op := Op.putField, member := ← reference d (some m) }
  | .ret t => return { op := Op.ret, type := ← placeType d t }
  | .guard c t => return { op := Op.guard, sub := c.code, type := ← placeType d t }
  | .call site =>
    match calls[site]? with
    | none => throw (.fault .absent)
    | some c => do
      let member ← reference d c.callee
      let targets ← c.targetList.mapM (reference d)
      return { op := Op.call, member, resolved := c.isResolved, targets := nonempty targets }

def isPlaced (s : Encoder) (r : BlockRef) : Bool := ((s.positions[r]?).join).isSome

def placeBlock (r : BlockRef) (next : Nat) (s : Encoder) : Encoder :=
  { s with positions := s.positions.setIfInBounds r (some next) }

def placeBlocks : List BlockRef → (next : Nat) → Encoder → Encoder
  | [], _, s => s
  | r :: rest, next, s => placeBlocks rest (next + 1) (s.placeBlock r next)

def blockEntry (d : Declarations) (g : Graph) (owner : MemberId) (b : Linkage.Block) :
    Encode Block := do
  let positions := (← get).positions
  let succs ← b.succs.mapM fun succ =>
    match succ.bind fun r => (positions[r]?).join with
    | some n => pure (position n)
    | none => throw (.nilSuccessor owner b.id)
  let code ← b.code.mapM (instrEntry d g.calls)
  return { code := nonempty code, succs := some succs, fixed := !b.mergeable }

def writeBlocks (d : Declarations) (g : Graph) (owner : MemberId) :
    List BlockRef → Encode PUnit
  | [] => return ⟨⟩
  | r :: rest => do
    match g.blocks[r]? with
    | none => throw (.fault .absent)
    | some b =>
      let entry ← blockEntry d g owner b
      modify fun s => { s with blocks := s.blocks.push entry }
      writeBlocks d g owner rest

/-- Writes the blocks below a root that were not written before, and gives the root's position. -/
def placeGraph (d : Declarations) (g : Graph) (owner : MemberId) (root : BlockRef) :
    Encode Nat := do
  match (← get).positions[root]? with
  | some (some n) => return n
  | _ =>
    match g.walk (some root) with
    | .error f => throw (.fault f)
    | .ok listed =>
      let s ← get
      let fresh := listed.filter fun r => !s.isPlaced r
      let n := s.blocks.size
      set (placeBlocks fresh n s)
      writeBlocks d g owner fresh
      return n

def placeBodies (d : Declarations) (g : Graph) (code : Registry) : List MemberId →
    Encode (List Body)
  | [] => return []
  | m :: rest =>
    match code.body? m with
    | none => throw (.noRoot m)
    | some root => do
      let root ← placeGraph d g m root
      let member ← placeMember d (some m)
      let bodies ← placeBodies d g code rest
      return { member := position member, root := position root } :: bodies

def start (g : Graph) : Encoder := { positions := Array.replicate g.blocks.size none }

def write (d : Declarations) (g : Graph) (code : Registry) (entry : Option MemberId)
    (order reachable : List MemberId) : Encode (Nat × List Body × List Int64) := do
  let entry ← placeMember d entry
  let bodies ← placeBodies d g code order
  let reachable ← reachable.mapM fun m => return position (← placeMember d (some m))
  return (entry, bodies, reachable)

/-- The image of the bodies of `order`. The members of `reachable` are listed if it is linked. -/
def image (d : Declarations) (g : Graph) (code : Registry) (entry : Option MemberId)
    (order : List MemberId) (runId : RunId) (reachable : Option (List MemberId)) :
    Except EncodeError Image := do
  let ((entry, bodies, listed), s) ← (write d g code entry order (reachable.getD [])).run (start g)
  return {
    version := currentVersion
    runId := runId.text
    classes := nonempty s.classes.toList
    members := nonempty s.members.toList
    blocks := nonempty s.blocks.toList
    bodies := nonempty bodies
    entry := position entry
    linked := reachable.isSome
    reachable := nonempty listed }

end Encoder

def ofCode (d : Declarations) (g : Graph) (code : Registry) (entry : Option MemberId)
    (runId : RunId) : Except EncodeError Image :=
  match code.ordered d entry with
  | .error f => .error (.fault f)
  | .ok order => Encoder.image d g code entry order runId none

def ofProgram (d : Declarations) (g : Graph) (code : Registry) (p : Program) (runId : RunId) :
    Except EncodeError Image :=
  let order := (p.reachableCode d).filter fun m => (code.find m).isSome
  Encoder.image d g code (some p.entry) order runId (some p.reachable)

def encodeCode (d : Declarations) (g : Graph) (code : Registry) (entry : Option MemberId)
    (runId : RunId) : Except EncodeError (List UInt8) :=
  (ofCode d g code entry runId).map marshal

def encodeProgram (d : Declarations) (g : Graph) (code : Registry) (p : Program) (runId : RunId) :
    Except EncodeError (List UInt8) :=
  (ofProgram d g code p runId).map marshal

end Image

end Linkage
