import Linkage.Diagnostic
import Linkage.Scope
import Linkage.Types.Declarations

/-!
# Checking contexts

The state in which a method body is checked: what its names are bound to, and where its errors are
reported. Declaring a variable gives a new context and leaves the old one as it was, so sibling
scopes start from the same parent. Every declaration takes a slot of its own.
-/

namespace Linkage

structure BindingKind where
  code : UInt8
  deriving DecidableEq, Repr

namespace BindingKind

def ofLocal : BindingKind := ⟨0⟩

def names : List String := ["local", "parameter", "receiver"]

def name (k : BindingKind) : Except Fault String := nameAt names k.code

end BindingKind

structure Binding where
  kind : BindingKind
  type : Ty
  slot : Int
  deriving DecidableEq, Repr

namespace Binding

def equal (a b : Binding) : Bool :=
  a.kind == b.kind && a.slot == b.slot && a.type.equal b.type

def text (d : Declarations) (b : Binding) : String :=
  embedded b.kind.name ++ " " ++ d.typeText b.type ++ "@" ++ toString b.slot

end Binding

structure Context where
  returnType : Ty
  sink : Sink
  assertions : Bool := false
  scope : Scope Binding := .empty
  next : Nat := 0
  deriving Repr

namespace Context

/-- Declares a variable in the next slot, also when the name shadows an earlier one. -/
def bindAs (c : Context) (kind : BindingKind) (name : Symbol) (type : Ty) : Context :=
  { c with
    scope := c.scope.update Binding.equal c.next name ⟨kind, type, c.next⟩
    next := c.next + 1 }

def bind (c : Context) (name : Symbol) (type : Ty) : Context :=
  c.bindAs BindingKind.ofLocal name type

def lookup (c : Context) (name : Symbol) : Option Binding := c.scope.lookup name

def typeOf (c : Context) (name : Symbol) : Option Ty := (c.lookup name).map (·.type)

def slotOf (c : Context) (name : Symbol) : Int := ((c.lookup name).map (·.slot)).getD (-1)

end Context

end Linkage
