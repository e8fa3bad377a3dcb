import Linkage.Types.Declarations

/-!
# Assignability

Which values may stand where a type is expected, and the least type that two types share.
-/

namespace Linkage.Declarations

/-- A type is assignable to an equal one; further `int` to `float`, the null type to every
reference type, a class to its superclasses, and arrays of references element by element. -/
def assignable (d : Declarations) (t u : Ty) : Bool :=
  t.equal u ||
    match t, u with
    | .primitive .int, .primitive .float => true
    | .primitive .nil, u => u.isReference
    | .object c, .object k => d.isSubclass c k
    | .array s, .array v => s.isReference && d.assignable s v
    | _, _ => false
termination_by structural t

/-- The least type to which both `t` and `u` are assignable, or no type. Two classes meet at the
first class upwards from the one that the other is a subclass of. -/
def least (d : Declarations) (t u : Ty) : Ty :=
  if d.assignable t u then u
  else if d.assignable u t then t
  else match t, u with
    | .object c, .object k =>
      match (d.ancestry c).find? (d.isSubclass k) with
      | some meet => .object meet
      | none => .absent
    | _, _ => .absent

end Linkage.Declarations
