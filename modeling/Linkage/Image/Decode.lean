import Linkage.Image.Bytes
import Linkage.Image.Malformed
import Linkage.Program.Basic
import Linkage.Text.Numeral

/-!
# Decoding images

Reads the tables of an image back into declarations and a block graph. An image is accepted only if
everything it refers to is there and of the right kind.
-/

namespace Linkage

structure LinkUnit where
  runId : RunId
  linked : Bool
  declarations : Declarations
  graph : Graph
  entry : MemberId
  code : Registry
  /-- Listed by linked images only. -/
  reachable : List MemberId
  deriving DecidableEq, Repr

namespace Image

abbrev Decode := Except Malformed

def Decode.within {α : Type} (place : Place) : Decode α → Decode α
  | .ok a => .ok a
  | .error reason => .error (.within place reason)

/-- The place that an index from zero stands for, if it is below `size`. -/
def index? (size : Nat) (i : Int64) : Option Nat :=
  if 0 ≤ i.toInt ∧ i.toInt < size then some i.toInt.toNat else none

/-- The place that an index from one stands for. -/
def reference? (size : Nat) (i : Int64) : Option Nat :=
  if 1 ≤ i.toInt ∧ i.toInt ≤ size then some (i.toInt.toNat - 1) else none

/-! ### Types -/

/-- Reads a type against `count` classes. Nothing stands for no type. -/
def typeOfChars (count : Nat) : List Char → Decode Ty
  | [] => .ok .absent
  | '[' :: rest =>
    match typeOfChars count rest with
    | .error reason => .error reason
    | .ok .absent => .error (.noElement (String.ofList ('[' :: rest)))
    | .ok t => .ok (.array t)
  | '@' :: rest =>
    match Numeral.decimal? rest with
    | some n =>
      if 0 ≤ n ∧ n < count then .ok (.object n.toNat)
      else .error (.classReference (String.ofList ('@' :: rest)))
    | none => .error (.classReference (String.ofList ('@' :: rest)))
  | name =>
    match Primitive.ofName? (String.ofList name) with
    | some p => .ok (.primitive p)
    | none => .error (.unknownType (String.ofList name))

def typeOf (count : Nat) (s : String) : Decode Ty := typeOfChars count s.toList

def paramsOf (count : Nat) (i : Nat) : List String → Decode (List Ty)
  | [] => .ok []
  | s :: rest => do
    match ← typeOf count s with
    | .absent => throw (.untypedParameter i)
    | t => return t :: (← paramsOf count (i + 1) rest)

/-- A type that has to be there, refused for one reason whatever is wrong with it. -/
def requiredType (count : Nat) (reason : Malformed) (s : String) : Decode Ty :=
  match typeOf count s with
  | .ok .absent | .error _ => .error reason
  | .ok t => .ok t

/-! ### Classes -/

def classNames (i : Nat) : List Class → Decode (List ClassDecl)
  | [] => .ok []
  | c :: rest =>
    if c.name.isEmpty then .error (.unnamedClass i)
    else (classNames (i + 1) rest).map (⟨c.name, none⟩ :: ·)

/-- Sets the superclasses from the class at place `i` on. A superclass that is below the class
already would close a cycle. -/
def linkSupers (d : Declarations) (i : Nat) : List Class → Decode Declarations
  | [] => .ok d
  | c :: rest =>
    if c.super = 0 then linkSupers d (i + 1) rest
    else match reference? d.classes.size c.super with
      | none => .error (.superOutOfRange c.name c.super)
      | some super =>
        if d.isSubclass super i then .error (.inheritanceCycle c.name)
        else
          let classes := d.classes.setIfInBounds i ⟨c.name, some super⟩
          linkSupers { d with classes } (i + 1) rest

def decodeClasses (classes : List Class) : Decode Declarations := do
  let named ← classNames 0 classes
  linkSupers { classes := named.toArray } 0 classes

/-! ### Members -/

def decodeMember (count : Nat) (i : Nat) (m : Member) : Decode Linkage.Member :=
  match index? count m.owner with
  | none => .error (.memberClass i m.owner)
  | some owner => do
    let params ← Decode.within (.member i) (paramsOf count 0 (m.params.getD []))
    if m.kind = fieldKind then
      return .field owner m.name (← requiredType count (.fieldType i m.type) m.type)
    else if m.kind = methodKind then
      return .method owner m.name params (← requiredType count (.resultType i m.type) m.type)
    else if m.kind = ctorKind then return .ctor owner params
    else throw (.memberKind i m.kind)

def decodeMembers (d : Declarations) (i : Nat) : List Member → Decode Declarations
  | [] => .ok d
  | m :: rest => do
    let member ← decodeMember d.classes.size i m
    decodeMembers (d.declare member) (i + 1) rest

def codeMember (d : Declarations) (i : Int64) : Decode MemberId :=
  match index? d.members.size i with
  | none => .error (.codeOutOfRange i)
  | some m => if d.isCode m then .ok m else .error (.notCode i)

def fieldReference (d : Declarations) (i : Int64) : Decode MemberId :=
  match reference? d.members.size i with
  | none => .error (.reference i)
  | some m => if d.isCode m then .error (.notField i) else .ok m

def callReference (d : Declarations) (i : Int64) : Decode MemberId :=
  match reference? d.members.size i with
  | none => .error (.reference i)
  | some m => if d.isCode m then .ok m else .error (.notCallable i)

/-! ### Instructions and blocks -/

def constantOf (i : Instr) (t : Ty) : Decode Constant :=
  match t with
  | .primitive .int => .ok (.int i.int)
  | .primitive .float => .ok (.float i.float)
  | .primitive .boolean => .ok (.bool i.bool)
  | .primitive .string => .ok (.string i.str)
  | .primitive .nil => .ok .nil
  | _ => .error (.constantType i.type)

def arithOp (i : Instr) : Decode ArithOp :=
  if i.sub.toNat < ArithOp.names.length then .ok ⟨i.sub⟩ else .error (.arithmeticOp i.sub)

def condOf (i : Instr) : Decode Cond :=
  if i.sub.toNat < Cond.names.length then .ok ⟨i.sub⟩ else .error (.condition i.sub)

def callOf (d : Declarations) (i : Instr) : Decode Call := do
  let callee ← callReference d i.member
  let listed := i.targets.getD []
  if i.resolved then
    let targets ← listed.mapM (callReference d)
    return { callee := some callee, targets := some (targets.map some) }
  else if listed.isEmpty then return { callee := some callee }
  else throw (.unresolvedTargets (d.signatureText (some callee)))

/-- An instruction, and the calls with the one that it may add. -/
def decodeInstr (d : Declarations) (calls : Array Call) (i : Instr) :
    Decode (Instruction × Array Call) := do
  let t ← typeOf d.classes.size i.type
  let plain (instruction : Instruction) : Decode (Instruction × Array Call) :=
    .ok (instruction, calls)
  if i.op = Op.nop then plain .nop
  else if i.op = Op.const then
    return (.ofConstant (← constantOf i t), calls)
  else if i.op = Op.load then plain (.load i.slot t)
  else if i.op = Op.store then plain (.store i.slot t)
  else if i.op = Op.arith then plain (.arith (← arithOp i) t)
  else if i.op = Op.neg then plain (.neg t)
  else if i.op = Op.not then plain .not
  else if i.op = Op.compare then plain (.compare (← condOf i) t)
  else if i.op = Op.dup then plain (.dup t)
  else if i.op = Op.pop then plain (.pop t)
  else if i.op = Op.new then
    match t with
    | .object c => plain (.new c)
    | _ => throw (.notClass i.type)
  else if i.op = Op.newArray then plain (.newArray t)
  else if i.op = Op.arrayLoad then plain (.arrayLoad t)
  else if i.op = Op.arrayStore then plain (.arrayStore t)
  else if i.op = Op.getField then plain (.getField (← fieldReference d i.member))
  else if i.op = Op.putField then plain (.putField (← fieldReference d i.member))
  else if i.op = Op.ret then plain (.ret t)
  else if i.op = Op.guard then plain (.guard (← condOf i) t)
  else if i.op = Op.call then
    return (.call calls.size, calls.push (← callOf d i))
  else throw (.opcode i.op)

def decodeCode (d : Declarations) (b i : Nat) (calls : Array Call) : List Instr →
    Decode (List Instruction × Array Call)
  | [] => .ok ([], calls)
  | instr :: rest => do
    let (instruction, calls) ← Decode.within (.instruction b i) (decodeInstr d calls instr)
    let (code, calls) ← decodeCode d b (i + 1) calls rest
    return (instruction :: code, calls)

/-- Creates every block before any is linked. The graph is also given if a block is refused, with
the blocks before it. -/
def createBlocks (d : Declarations) (g : Graph) (i : Nat) : List Block → Graph × Option Malformed
  | [] => (g, none)
  | b :: rest =>
    match b.code.getD [] with
    | [] => (g, some (.emptyBlock i))
    | code =>
      match decodeCode d i 0 g.calls code with
      | .error reason => (g, some reason)
      | .ok (code, calls) =>
        let (_, g) := { g with calls }.allocate code [] (!b.fixed)
        createBlocks d g (i + 1) rest

def successors (count i : Nat) : List Int64 → Decode (List (Option BlockRef))
  | [] => .ok []
  | succ :: rest =>
    match index? count succ with
    | none => .error (.successor i succ)
    | some r => (successors count i rest).map (some r :: ·)

def linkBlocks (g : Graph) (i : Nat) : List Block → Decode Graph
  | [] => .ok g
  | b :: rest => do
    let succs ← successors g.blocks.size i (b.succs.getD [])
    match g.blocks[i]? with
    | none => linkBlocks g (i + 1) rest
    | some block => linkBlocks (g.setBlock i { block with succs }) (i + 1) rest

/-! ### Bodies and the whole -/

def decodeBodies (d : Declarations) (count : Nat) (code : Registry) (i : Nat) : List Body →
    Decode Registry
  | [] => .ok code
  | b :: rest => do
    let m ← Decode.within (.body i) (codeMember d b.member)
    match index? count b.root with
    | none => throw (.rootOutOfRange i b.root)
    | some root =>
      if (code.find m).isSome then throw (.twoBodies i (d.signatureText (some m)))
      else decodeBodies d count (code ++ [(m, some root)]) (i + 1) rest

def decodeReachable (count : Nat) : List Int64 → Decode (List MemberId)
  | [] => .ok []
  | i :: rest =>
    match index? count i with
    | none => .error (.reachableOutOfRange i)
    | some m => (decodeReachable count rest).map (m :: ·)

def decodeRunId (s : String) : Decode RunId :=
  if s.isEmpty then .ok .zero
  else match RunId.parse s with
    | .ok id => .ok id
    | .error e => .error (.runId e)

def decodeTables (img : Image) : Decode (RunId × Declarations) := do
  if img.version ≠ currentVersion then throw (.version img.version)
  let runId ← decodeRunId img.runId
  let d ← decodeClasses (img.classes.getD [])
  let d ← decodeMembers d 0 (img.members.getD [])
  return (runId, d)

def decodeRest (img : Image) (runId : RunId) (d : Declarations) (g : Graph) : Decode LinkUnit := do
  let g ← linkBlocks g 0 (img.blocks.getD [])
  let entry ← Decode.within .entry (codeMember d img.entry)
  let code ← decodeBodies d g.blocks.size [] 0 (img.bodies.getD [])
  let reachable ← decodeReachable d.members.size (img.reachable.getD [])
  return { runId, linked := img.linked, declarations := d, graph := g, entry, code, reachable }

/-- Reads an image whose blocks take identities from `issued` on, and gives the count of identities
issued afterwards, also if the image is refused. -/
def decode (img : Image) (issued : Nat) : Decode LinkUnit × Nat :=
  match decodeTables img with
  | .error reason => (.error reason, issued)
  | .ok (runId, d) =>
    match createBlocks d { issued } 0 (img.blocks.getD []) with
    | (g, some reason) => (.error reason, g.issued)
    | (g, none) => (decodeRest img runId d g, g.issued)

end Image

/-! ### Reading bytes -/

inductive DecodeError where
  /-- The bytes are no image at all. -/
  | bytes
  | malformed (reason : Image.Malformed)
  deriving DecidableEq, Repr

def LinkUnit.decode (bytes : List UInt8) (issued : Nat) : Except DecodeError LinkUnit × Nat :=
  match Image.unmarshal bytes with
  | none => (.error .bytes, issued)
  | some img =>
    match img.decode issued with
    | (.ok u, issued) => (.ok u, issued)
    | (.error reason, issued) => (.error (.malformed reason), issued)

/-! ### Looking up bodies -/

inductive FindError where
  | noBody (name : String)
  | ambiguous (name : String) (signatures : List String)
  deriving DecidableEq, Repr

def FindError.message : FindError → String
  | .noBody name => "wire: no body for " ++ name
  | .ambiguous name signatures =>
    "wire: " ++ name ++ " is ambiguous: " ++ ", ".intercalate signatures

namespace LinkUnit

def findClass (u : LinkUnit) (name : String) : Option ClassId :=
  u.declarations.classes.toList.findIdx? (·.name == name)

def lookup (u : LinkUnit) (name : String) : Option MemberId :=
  (u.code.map (·.1)).find? fun m =>
    match u.declarations.signature m with
    | .ok s => s == name
    | .error _ => false

/-- The member with a body that `name` stands for, by its printed signature or else by its short
name, which has to belong to one member only. -/
def find (u : LinkUnit) (name : String) : Except FindError MemberId :=
  match u.lookup name with
  | some m => .ok m
  | none =>
    match (u.code.map (·.1)).filter fun m => u.declarations.shortName? m == some name with
    | [] => .error (.noBody name)
    | [m] => .ok m
    | found =>
      let signatures := found.map fun m => embedded (u.declarations.signature m)
      .error (.ambiguous name (signatures.mergeSort fun a b => !decide (b < a)))

end LinkUnit

end Linkage
