import Linkage.Float.Shortest
import Linkage.Text.Quoted
import Linkage.Types.Declarations

/-!
# Instructions

The instructions of a stack machine, and how a listing shows them. A call refers to its call site,
because the targets of a call may become known after the instruction was placed in a block.
-/

namespace Linkage

structure ArithOp where
  code : UInt8
  deriving DecidableEq, Repr

def ArithOp.names : List String := ["add", "sub", "mul", "div", "rem"]

def ArithOp.name (op : ArithOp) : Except Fault String := nameAt ArithOp.names op.code

/-- A condition, by code. The conditions come in complementary pairs. -/
structure Cond where
  code : UInt8
  deriving DecidableEq, Repr

namespace Cond

def names : List String := ["true", "false", "eq", "ne", "lt", "ge", "gt", "le"]

def name (c : Cond) : Except Fault String := nameAt names c.code

def isTrue : Cond := ⟨0⟩

def negate (c : Cond) : Cond := ⟨c.code ^^^ 1⟩

def isUnary (c : Cond) : Bool := c.code ≤ 1

end Cond

inductive Constant where
  | nil
  | int (value : Int64)
  | float (value : Double)
  | bool (value : Bool)
  /-- Any bytes; they need not be UTF-8. -/
  | string (bytes : List UInt8)
  deriving DecidableEq, Repr

namespace Constant

def text : Constant → String
  | .nil => "nil"
  | .int n => toString n.toInt
  | .float x => x.text
  | .bool b => if b then "true" else "false"
  | .string bytes => Quoted.ofBytes bytes

def type : Constant → Ty
  | .nil => .primitive .nil
  | .int _ => .primitive .int
  | .float _ => .primitive .float
  | .bool _ => .primitive .boolean
  | .string _ => .primitive .string

end Constant

abbrev CallRef := Nat

/-- A call of a static callee. Its targets are the members it may reach when run; they are unknown
until the call is resolved, and a resolved call may have none. -/
structure Call where
  callee : Option MemberId
  targets : Option (List (Option MemberId)) := none
  deriving DecidableEq, Repr

namespace Call

def isResolved (c : Call) : Bool := c.targets.isSome

def targetList (c : Call) : List (Option MemberId) := c.targets.getD []

def name (d : Declarations) (c : Call) : Except Fault String := do
  let callee ← d.signatureOf c.callee
  match c.targets with
  | none => return "call " ++ callee ++ " [?]"
  | some targets =>
    let names ← targets.mapM d.signatureOf
    return "call " ++ callee ++ " [" ++ ", ".intercalate names ++ "]"

end Call

inductive Instruction where
  | nop
  | const (type : Ty) (value : Constant)
  | load (slot : Int64) (type : Ty)
  | store (slot : Int64) (type : Ty)
  | arith (op : ArithOp) (type : Ty)
  | neg (type : Ty)
  | not
  | compare (cond : Cond) (type : Ty)
  | dup (type : Ty)
  | pop (type : Ty)
  | new (c : ClassId)
  | newArray (elem : Ty)
  | arrayLoad (elem : Ty)
  | arrayStore (elem : Ty)
  | getField (field : MemberId)
  | putField (field : MemberId)
  | ret (type : Ty)
  /-- Goes on only if the condition holds. -/
  | guard (cond : Cond) (type : Ty)
  | call (site : CallRef)
  deriving DecidableEq, Repr

namespace Instruction

def ofConstant (value : Constant) : Instruction := .const value.type value

def name (d : Declarations) (calls : Array Call) : Instruction → Except Fault String
  | .nop => .ok "nop"
  | .const _ value => .ok ("const " ++ value.text)
  | .load slot t => .ok ("load " ++ toString slot.toInt ++ " of type " ++ d.typeText t)
  | .store slot t => .ok ("store " ++ toString slot.toInt ++ " of type " ++ d.typeText t)
  | .arith op t => .ok (embedded op.name ++ " " ++ d.typeText t)
  | .neg t => (d.typeName t).map ("neg " ++ ·)
  | .not => .ok "not"
  | .compare c t => .ok ("cmp" ++ embedded c.name ++ " " ++ d.typeText t)
  | .dup t => (d.typeName t).map ("dup " ++ ·)
  | .pop t => (d.typeName t).map ("pop " ++ ·)
  | .new c => (d.className c).map ("new " ++ ·)
  | .newArray t => (d.typeName t).map ("newarray " ++ ·)
  | .arrayLoad t => (d.typeName t).map ("arrayload " ++ ·)
  | .arrayStore t => (d.typeName t).map ("arraystore " ++ ·)
  | .getField f => (d.signature f).map ("getfield " ++ ·)
  | .putField f => (d.signature f).map ("putfield " ++ ·)
  | .ret t =>
    if t = .absent ∨ t = .primitive .void then .ok "return"
    else (d.typeName t).map ("return " ++ ·)
  | .guard c t =>
    if c.isUnary then c.name.map ("if_" ++ ·)
    else .ok ("if_cmp" ++ embedded c.name ++ " " ++ d.typeText t)
  | .call site =>
    match calls[site]? with
    | some c => c.name d
    | none => .error .absent

end Instruction

end Linkage
