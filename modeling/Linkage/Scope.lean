import Linkage.Symbol

/-!
# Scopes

A scope binds symbols to values. It is a search tree ordered by name that is never changed:
updating it copies the nodes on the way to the key and shares all the others. Greater names are on
the left. Every node carries the version it was made for, so that what two scopes share can be told.
-/

namespace Linkage

inductive Scope (α : Type) where
  | empty
  | node (version : Nat) (key : Symbol) (value : α) (left right : Scope α)
  deriving Repr

namespace Scope

variable {α : Type}

def isEmpty : Scope α → Bool
  | .empty => true
  | .node .. => false

/-- The version of the root. Scopes of one history are the same scope if their roots have the same
version. -/
def version? : Scope α → Option Nat
  | .empty => none
  | .node version .. => some version

def lookup (key : Symbol) : Scope α → Option α
  | .empty => none
  | .node _ k value left right =>
    match k.compare key with
    | .lt => left.lookup key
    | .gt => right.lookup key
    | .eq => some value

/-- The scope with `key` bound to `value`, or nothing if `key` is bound to the same value already.
The new nodes are of the given version. -/
def update? (same : α → α → Bool) (version : Nat) (key : Symbol) (value : α) :
    Scope α → Option (Scope α)
  | .empty => some (.node version key value .empty .empty)
  | .node _ k old left right =>
    match k.compare key with
    | .lt => (left.update? same version key value).map fun left => .node version k old left right
    | .gt => (right.update? same version key value).map fun right => .node version k old left right
    | .eq => if same old value then none else some (.node version k value left right)

def update (same : α → α → Bool) (version : Nat) (key : Symbol) (value : α) (s : Scope α) :
    Scope α :=
  (s.update? same version key value).getD s

def size : Scope α → Nat
  | .empty => 0
  | .node _ _ _ left right => 1 + left.size + right.size

def depth : Scope α → Nat
  | .empty => 0
  | .node _ _ _ left right => 1 + max left.depth right.depth

/-- The bindings in ascending order of their names. -/
def toList : Scope α → List (Symbol × α)
  | .empty => []
  | .node _ key value left right => right.toList ++ (key, value) :: left.toList

end Scope

end Linkage
