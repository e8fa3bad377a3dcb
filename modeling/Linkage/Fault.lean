/-!
# Faults

A fault is a broken contract: an operation was handed something it cannot work on. It stops the
operation at hand and is told apart from the defects and errors that a caller is expected to meet.
-/

namespace Linkage

inductive Fault where
  /-- A type, member or block that the operation needs is not there. -/
  | absent
  /-- A name table was asked for an entry it does not have. -/
  | outOfRange (index length : Nat)
  | branchToNothing
  | plainToNothing
  | linkToNothing
  /-- A program image was to refer to a member that is not there. -/
  | absentSignature
  deriving DecidableEq, Repr

def Fault.message : Fault → String
  | .absent => "runtime error: invalid memory address or nil pointer dereference"
  | .outOfRange index length =>
    "runtime error: index out of range [" ++ toString index ++ "] with length " ++ toString length
  | .branchToNothing => "ir: Branch with nil successor"
  | .plainToNothing => "ir: Plain with nil successor"
  | .linkToNothing => "ir: LinkTo nil block"
  | .absentSignature => "wire: unknown signature <nil>"

def absentText : String := "%!s(<nil>)"

/-- A name inside a longer message. A fault met while naming is told in place of the name, so the
message itself is always written. -/
def embedded : Except Fault String → String
  | .ok name => name
  | .error fault => "%!s(PANIC=String method: " ++ fault.message ++ ")"

def nameAt (names : List String) (code : UInt8) : Except Fault String :=
  match names[code.toNat]? with
  | some name => .ok name
  | none => .error (.outOfRange code.toNat names.length)

end Linkage
