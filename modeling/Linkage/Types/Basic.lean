/-!
# Types

Primitive types, class types and array types. A type may be absent: an instruction may carry none,
and an array may have been given none for its elements.
-/

namespace Linkage

inductive Primitive where
  | void
  | int
  | float
  | boolean
  | string
  /-- The type of the null reference. -/
  | nil
  /-- A code that stands for no primitive type. -/
  | unknown (code : UInt8)
  deriving DecidableEq, Repr

namespace Primitive

def name : Primitive → String
  | .void => "void"
  | .int => "int"
  | .float => "float"
  | .boolean => "boolean"
  | .string => "String"
  | .nil => "nil"
  | .unknown _ => "unknown"

def ofCode (code : UInt8) : Primitive :=
  match code.toNat with
  | 0 => .void
  | 1 => .int
  | 2 => .float
  | 3 => .boolean
  | 4 => .string
  | 5 => .nil
  | _ => .unknown code

def named : List Primitive := [.void, .int, .float, .boolean, .string, .nil]

def ofName? (name : String) : Option Primitive := named.find? (·.name == name)

def isNumeric (p : Primitive) : Bool := p == .int || p == .float

end Primitive

/-- A class is known by its place among the declared classes, not by its name. -/
abbrev ClassId := Nat

inductive Ty where
  | absent
  | primitive (p : Primitive)
  | object (c : ClassId)
  | array (elem : Ty)
  deriving DecidableEq, Repr

namespace Ty

def equal : Ty → Ty → Bool
  | .absent, .absent => true
  | .primitive p, .primitive q => p == q
  | .object c, .object d => c == d
  | .array s, .array t => s.equal t
  | _, _ => false

def isReference : Ty → Bool
  | .object _ | .array _ => true
  | .primitive p => p == .nil || p == .string
  | .absent => false

def equalList : List Ty → List Ty → Bool
  | [], [] => true
  | s :: ss, t :: ts => s.equal t && equalList ss ts
  | _, _ => false

end Ty

end Linkage
