import Linkage.Fault
import Linkage.Types.Basic

/-!
# Declarations

The classes of a program with their members, and the names under which messages and listings show
them. Classes and members are referred to by their position. The names are texts of characters, so a
name whose bytes are no UTF-8 is left out.
-/

namespace Linkage

structure ClassDecl where
  name : String
  super : Option ClassId
  deriving DecidableEq, Repr

abbrev MemberId := Nat

inductive Member where
  | field (owner : ClassId) (name : String) (type : Ty)
  | method (owner : ClassId) (name : String) (params : List Ty) (result : Ty)
  | ctor (owner : ClassId) (params : List Ty)
  deriving DecidableEq, Repr

namespace Member

def owner : Member → ClassId
  | .field c _ _ | .method c _ _ _ | .ctor c _ => c

def isField : Member → Bool
  | .field .. => true
  | _ => false

def isMethod : Member → Bool
  | .method .. => true
  | _ => false

def isCtor : Member → Bool
  | .ctor .. => true
  | _ => false

def hasCode (m : Member) : Bool := !m.isField

def params : Member → List Ty
  | .field .. => []
  | .method _ _ ps _ | .ctor _ ps => ps

def result : Member → Ty
  | .field _ _ t => t
  | .method _ _ _ t => t
  | .ctor .. => .primitive .void

end Member

structure Declarations where
  classes : Array ClassDecl := #[]
  members : Array Member := #[]
  deriving DecidableEq, Repr

namespace Declarations

def superOf (d : Declarations) (c : ClassId) : Option ClassId :=
  (d.classes[c]?).bind (·.super)

def chain (d : Declarations) : Nat → Option ClassId → List ClassId
  | 0, _ => []
  | _, none => []
  | n + 1, some c => c :: d.chain n (d.superOf c)

/-- A class followed by its superclass, that one's superclass, and so on. Without a cycle the list
never needs more places than there are classes. -/
def ancestry (d : Declarations) (c : ClassId) : List ClassId :=
  d.chain (d.classes.size + 1) (some c)

def isSubclass (d : Declarations) (c other : ClassId) : Bool :=
  (d.ancestry c).contains other

def declare (d : Declarations) (m : Member) : Declarations :=
  { d with members := d.members.push m }

/-! ### Names -/

def className (d : Declarations) (c : ClassId) : Except Fault String :=
  match d.classes[c]? with
  | some k => .ok k.name
  | none => .error .absent

def typeName (d : Declarations) : Ty → Except Fault String
  | .absent => .error .absent
  | .primitive p => .ok p.name
  | .object c => d.className c
  | .array t => (d.typeName t).map ("array of " ++ ·)

def typeText (d : Declarations) (t : Ty) : String :=
  if t = .absent then absentText else embedded (d.typeName t)

def typeNames (d : Declarations) (ts : List Ty) : Except Fault String := do
  let names ← ts.mapM d.typeName
  return ",".intercalate names

def memberName (d : Declarations) : Member → Except Fault String
  | .field c name t => do
    return (← d.className c) ++ "." ++ name ++ ":" ++ d.typeText t
  | .method c name ps t => do
    return (← d.className c) ++ "." ++ name ++ "(" ++ (← d.typeNames ps) ++ "):" ++ d.typeText t
  | .ctor c ps => do
    return (← d.className c) ++ ".<init>(" ++ (← d.typeNames ps) ++ ")"

def signature (d : Declarations) (m : MemberId) : Except Fault String :=
  match d.members[m]? with
  | some member => d.memberName member
  | none => .error .absent

def signatureOf (d : Declarations) : Option MemberId → Except Fault String
  | some m => d.signature m
  | none => .error .absent

def signatureText (d : Declarations) : Option MemberId → String
  | some m => embedded (d.signature m)
  | none => absentText

/-- `Class.member`, with `<init>` for constructors. Fields have no short name. -/
def shortName? (d : Declarations) (m : MemberId) : Option String := do
  let member ← d.members[m]?
  let owner ← d.classes[member.owner]?
  match member with
  | .method _ name _ _ => some (owner.name ++ "." ++ name)
  | .ctor .. => some (owner.name ++ ".<init>")
  | .field .. => none

/-! ### Members of a class -/

def isCode (d : Declarations) (m : MemberId) : Bool :=
  (d.members[m]?).any Member.hasCode

def membersWhere (d : Declarations) (p : Member → Bool) : List MemberId :=
  (List.range d.members.size).filter fun m => (d.members[m]?).any p

def fieldsOf (d : Declarations) (c : ClassId) : List MemberId :=
  d.membersWhere fun m => m.isField && m.owner == c

def methodsOf (d : Declarations) (c : ClassId) : List MemberId :=
  d.membersWhere fun m => m.isMethod && m.owner == c

def ctorsOf (d : Declarations) (c : ClassId) : List MemberId :=
  d.membersWhere fun m => m.isCtor && m.owner == c

/-- Fields first, then constructors, then methods, each in declaration order. -/
def membersOf (d : Declarations) (c : ClassId) : List MemberId :=
  d.fieldsOf c ++ d.ctorsOf c ++ d.methodsOf c

def isFieldNamed (name : String) : Member → Bool
  | .field _ n _ => n == name
  | _ => false

def isMethodLike (name : String) (params : List Ty) : Member → Bool
  | .method _ n ps _ => n == name && Ty.equalList ps params
  | _ => false

def isCtorLike (params : List Ty) : Member → Bool
  | .ctor _ ps => Ty.equalList ps params
  | _ => false

def findField (d : Declarations) (c : ClassId) (name : String) : Option MemberId :=
  (d.ancestry c).findSome? fun k =>
    (d.fieldsOf k).find? fun m => (d.members[m]?).any (isFieldNamed name)

/-- The method of that name and exactly these parameter types, nearest class first. -/
def findMethod (d : Declarations) (c : ClassId) (name : String) (params : List Ty) :
    Option MemberId :=
  (d.ancestry c).findSome? fun k =>
    (d.methodsOf k).find? fun m => (d.members[m]?).any (isMethodLike name params)

/-- Constructors are not inherited. -/
def findCtor (d : Declarations) (c : ClassId) (params : List Ty) : Option MemberId :=
  (d.ctorsOf c).find? fun m => (d.members[m]?).any (isCtorLike params)

end Declarations

end Linkage
