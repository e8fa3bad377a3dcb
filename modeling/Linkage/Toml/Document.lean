import Linkage.Toml.Reader

/-!
# TOML documents

What the items of a document amount to: tables, and the keys in the order in which they are written.
A table that is only implied by a longer key may be defined once later on.

Tables are known by their numbers. While an inline table is read, the document already holds a table
at its key, and the inline table is made beside it; what the one holds may be held by the other too.
-/

namespace Linkage.Toml

abbrev TableId := Nat

inductive Value where
  | scalar (s : Scalar)
  /-- An array. Its items are checked, but not kept. -/
  | array
  | table (id : TableId)
  /-- The tables under repeated headers, in order. -/
  | tables (ids : List TableId)
  deriving DecidableEq, Repr

abbrev Table := List (String × Value)

namespace Table

def get? (t : Table) (name : String) : Option Value := List.lookup name t

def set (t : Table) (name : String) (v : Value) : Table :=
  if t.any (·.1 == name) then t.map fun e => if e.1 == name then (name, v) else e
  else t ++ [(name, v)]

end Table

/-- Tables by number, and the keys in the order in which they are written. -/
structure Document where
  /-- The first table is the top of the document. -/
  tables : Array Table := #[[]]
  keys : List Key := []

namespace Document

def table (d : Document) (id : TableId) : Table := (d.tables[id]?).getD []

def top (d : Document) : Table := d.table 0

def put (d : Document) (id : TableId) (name : String) (v : Value) : Document :=
  { d with tables := d.tables.modify id (·.set name v) }

def newTable (d : Document) : TableId × Document :=
  (d.tables.size, { d with tables := d.tables.push [] })

/-- The table under a name. A list of tables stands for its last element. -/
def inner? (d : Document) (id : TableId) (name : String) : Option TableId :=
  match (d.table id).get? name with
  | some (.table inner) => some inner
  | some (.tables ids) => ids.getLast?
  | _ => none

def tableAt? (d : Document) (path : Key) : Option TableId := path.foldlM d.inner? 0

/-- Sets an entry below a table, with new tables on the way where there is nothing. -/
def enter (d : Document) (id : TableId) (name : String) (v : Value) : Key → Option Document
  | [] => some (d.put id name v)
  | part :: path =>
    match (d.table id).get? part with
    | none =>
      let (inner, d) := d.newTable
      (d.put id part (.table inner)).enter inner name v path
    | some (.table inner) => d.enter inner name v path
    | some _ => none

end Document

structure Builder extends Document where
  /-- The tables that are implied by longer keys, and may still be defined. -/
  implied : List Key := []
  /-- The keys that are known to hold arrays. -/
  arrays : List Key := []

namespace Builder

def imply (b : Builder) (k : Key) : Builder :=
  if b.implied.contains k then b else { b with implied := k :: b.implied }

def define (b : Builder) (k : Key) : Builder := { b with implied := b.implied.filter (· != k) }

/-- Notes whether a key holds an array. The empty name stands for the table it would be in. -/
def noteArray (b : Builder) (context : Key) (name : String) (isArray : Bool) : Builder :=
  let k := if name.isEmpty then if context.isEmpty then [""] else context else context ++ [name]
  let others := b.arrays.filter (· != k)
  { b with arrays := if isArray then k :: others else others }

def put (b : Builder) (id : TableId) (name : String) (v : Value) : Builder :=
  { b with toDocument := b.toDocument.put id name v }

def newTable (b : Builder) : TableId × Builder :=
  let (id, d) := b.toDocument.newTable
  (id, { b with toDocument := d })

/-- Sets a key. One that has a value already must only be implied, and is defined from now on: an
array there is replaced, and a table stays. -/
def setValue (b : Builder) (context : Key) (name : String) (v : Value) : Option Builder := do
  let id ← b.tableAt? context
  let k := context ++ [name]
  if ((b.table id).get? name).isNone then some (b.put id name v)
  else if !b.implied.contains k then none
  else if b.arrays.contains k then some ((b.define k).put id name v)
  else some (b.define k)

def implyParents (b : Builder) (above : Key) : Key → Option Builder
  | [] => some b
  | part :: path => do
    let id ← b.tableAt? above
    let k := above ++ [part]
    if ((b.table id).get? part).isNone then
      let (inner, b) := (b.imply k).newTable
      (b.put id part (.table inner)).implyParents k path
    else b.implyParents k path

def addTable (b : Builder) (k : Key) : Option Builder := do
  let b ← b.implyParents [] k.dropLast
  let (id, b) := b.newTable
  b.setValue k.dropLast (k.getLast?.getD "") (.table id)

def addElement (b : Builder) (k : Key) : Option Builder := do
  let b ← b.implyParents [] k.dropLast
  let id ← b.tableAt? k.dropLast
  let name := k.getLast?.getD ""
  let (element, b) := b.newTable
  match (b.table id).get? name with
  | none => some (b.put id name (.tables [element]))
  | some (.tables ids) => some (b.put id name (.tables (ids ++ [element])))
  | some _ => none

def openPath (b : Builder) (context : Key) : Key → Option (Builder × Key)
  | [] => some (b, context)
  | part :: path => do
    let k := context ++ [part]
    let b ← (b.imply k).addTable k
    b.openPath k path

/-- Makes ready for the value of a key; gives the table that it goes into. -/
def openEntry (b : Builder) (context k : Key) (name : String) : Option (Builder × Key) := do
  let (b, inner) ← b.openPath context k.dropLast
  return ({ b with keys := b.keys ++ [inner ++ [name]] }, inner)

def closeEntry (b : Builder) (inner : Key) (name : String) (v : Value) : Option Builder := do
  let b ← b.setValue inner name v
  return b.noteArray inner name (v == .array)

mutual

/-- Gives the value that is written at a key, and enters what is inside it into the document. -/
def addExpr (b : Builder) (context : Key) (name : String) (inArray : Bool) :
    Expr → Option (Value × Builder)
  | .scalar s => some (.scalar s, b)
  | .array items => do
    let b ← addExprs (b.noteArray context name true) context name items
    return (.array, b)
  | .inline entries => do
    let k := context ++ [name]
    let b := b.imply k
    let b ← if inArray then b.addElement k else b.addTable k
    let (made, b) := b.newTable
    let b ← addEntries b k made entries
    return (.table made, b)

def addExprs (b : Builder) (context : Key) (name : String) : Exprs → Option Builder
  | .nil => some b
  | .cons e rest => do
    let (_, b) ← addExpr b context name true e
    addExprs b context name rest

def addEntries (b : Builder) (context : Key) (made : TableId) : Entries → Option Builder
  | .nil => some b
  | .cons k e rest => do
    let name := k.getLast?.getD ""
    let (b, inner) ← b.openEntry context k name
    let (v, b) ← addExpr b inner name false e
    let b ← b.closeEntry inner name v
    let d ← b.enter made name v k.dropLast
    addEntries { b with toDocument := d } context made rest

end

def addItem (b : Builder) (context : Key) : Item → Option (Builder × Key)
  | .table k => do
    let b ← b.addTable k
    let b := b.noteArray k "" false
    return ({ b with keys := b.keys ++ [k] }, k)
  | .tableArray k => do
    let b ← b.addElement k
    let b := b.noteArray k "" false
    return ({ b with keys := b.keys ++ [k] }, k)
  | .entry k e => do
    let name := k.getLast?.getD ""
    let (b, inner) ← b.openEntry context k name
    let (v, b) ← b.addExpr inner name false e
    return (← b.closeEntry inner name v, context)

def addItems (b : Builder) (context : Key) : List Item → Option Builder
  | [] => some b
  | i :: rest => do
    let (b, context) ← b.addItem context i
    b.addItems context rest

end Builder

def Document.ofItems? (items : List Item) : Option Document :=
  (({} : Builder).addItems [] items).map (·.toDocument)

def Document.parse? (bytes : List UInt8) : Option Document := do
  Document.ofItems? (← items? bytes)

/-! ### Keys as text -/

def escapedChar (c : Char) : List Char :=
  if c = '"' then ['\\', '"']
  else if c = '\\' then ['\\', '\\']
  else if c = Char.ofNat 8 then ['\\', 'b']
  else if c = '\t' then ['\\', 't']
  else if c = '\n' then ['\\', 'n']
  else if c = Char.ofNat 12 then ['\\', 'f']
  else if c = '\r' then ['\\', 'r']
  else if c.toNat < 32 ∨ c.toNat = 127 then '\\' :: 'u' :: Hex.fixed 4 c.toNat
  else [c]

def partText (s : String) : String :=
  if !s.isEmpty && s.toList.all isBareChar then s
  else "\"" ++ String.ofList (s.toList.flatMap escapedChar) ++ "\""

def Key.text (k : Key) : String := ".".intercalate (k.map partText)

end Linkage.Toml
