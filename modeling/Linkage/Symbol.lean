/-!
# Symbols

Names interned in a table. A symbol is the handle that interning gives out: the same name always
gives the same handle, until the table is reset. Handles of another table, or from before a reset,
are different ones even for the same name. Names are texts of characters: sequences of bytes that
are no UTF-8 are not among them.
-/

namespace Linkage

structure Symbol where
  name : String
  id : UInt32
  /-- The table that made the handle. -/
  table : Nat
  /-- How many handles that table had made before, so that each one it makes is a new one. -/
  made : Nat
  deriving DecidableEq, Repr

/-- Symbols are ordered by name; the order of UTF-8 bytes is that of code points. -/
def Symbol.compare (a b : Symbol) : Ordering := Ord.compare a.name b.name

structure SymbolTable where
  serial : Nat := 0
  /-- How many handles the table has made, the forgotten ones included. -/
  made : Nat := 0
  /-- The handle of each name. -/
  byName : List (String × Symbol) := []
  /-- The handles in the order in which they were made; the place of a handle is its identifier. -/
  byId : Array Symbol := #[]
  deriving DecidableEq, Repr

namespace SymbolTable

def size (t : SymbolTable) : Nat := t.byId.size

def lookup (t : SymbolTable) (name : String) : Option Symbol := t.byName.lookup name

def fresh (t : SymbolTable) (name : String) : Symbol :=
  ⟨name, UInt32.ofNat t.byId.size, t.serial, t.made⟩

def add (t : SymbolTable) (name : String) : SymbolTable :=
  { t with
    made := t.made + 1
    byName := (name, t.fresh name) :: t.byName
    byId := t.byId.push (t.fresh name) }

def intern (t : SymbolTable) (name : String) : Symbol × SymbolTable :=
  match t.lookup name with
  | some s => (s, t)
  | none => (t.fresh name, t.add name)

def all (t : SymbolTable) : List String := t.byId.toList.map (·.name)

def reset (t : SymbolTable) : SymbolTable := { t with byName := [], byId := #[] }

end SymbolTable

end Linkage
