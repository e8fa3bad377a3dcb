import Linkage.Text.Utf8
import Linkage.Toml.Scalar
import Linkage.Toml.Text

/-!
# Reading TOML

From the bytes of a document to its entries and headers in the order in which they are written. What
they amount to together is told by the document.
-/

namespace Linkage.Toml

/-- The names that lead to a value from the top of the document. -/
abbrev Key := List String

mutual

inductive Expr where
  | scalar (s : Scalar)
  | array (items : Exprs)
  | inline (entries : Entries)

inductive Exprs where
  | nil
  | cons (e : Expr) (rest : Exprs)

inductive Entries where
  | nil
  | cons (key : Key) (e : Expr) (rest : Entries)

end

inductive Item where
  | table (key : Key)
  | tableArray (key : Key)
  | entry (key : Key) (e : Expr)

/-! ### Blanks and keys -/

def skipBlanks (cs : List Char) : List Char := cs.dropWhile isBlank

def skipGap (inComment : Bool) : List Char → List Char
  | [] => []
  | c :: cs =>
    if inComment then skipGap (!isNewline c) cs
    else if isBlank c || isNewline c then skipGap false cs
    else if c = '#' then skipGap true cs
    else c :: cs

def isBareChar (c : Char) : Bool :=
  c.isAlphanum || c == '_' || c == '-'

def keyPart : List Char → Option (String × List Char)
  | '"' :: cs => lineString '"' cs
  | '\'' :: cs => lineString '\'' cs
  | cs =>
    let bare := cs.takeWhile isBareChar
    if bare.isEmpty then none else some (String.ofList bare, cs.drop bare.length)

/-- The parts of a dotted key and the blanks after it. There are fewer parts than characters. -/
def keyFrom : Nat → List Char → Option (Key × List Char)
  | 0, _ => none
  | steps + 1, cs => do
    let (part, rest) ← keyPart (skipBlanks cs)
    match skipBlanks rest with
    | '.' :: rest =>
      let (key, rest) ← keyFrom steps rest
      return (part :: key, rest)
    | rest => return ([part], rest)

def key (cs : List Char) : Option (Key × List Char) := keyFrom cs.length cs

def keyOfEntry (cs : List Char) : Option (Key × List Char) := do
  match ← key cs with
  | (k, '=' :: rest) => return (k, skipBlanks rest)
  | _ => none

/-! ### Values -/

mutual

/-- A value. Every second step reads a character at least, so twice as many steps as there are
characters are enough. -/
def exprFrom : Nat → List Char → Option (Expr × List Char)
  | 0, _ => none
  | steps + 1, cs =>
    match cs with
    | '[' :: rest => do
      let (items, rest) ← exprsFrom steps (skipGap false rest)
      return (.array items, rest)
    | '\x7b' :: rest => do
      let (entries, rest) ← entriesFrom steps (skipGap false rest)
      return (.inline entries, rest)
    | '"' :: rest => (string '"' rest).map fun (s, rest) => (.scalar (.string s), rest)
    | '\'' :: rest => (string '\'' rest).map fun (s, rest) => (.scalar (.string s), rest)
    | cs => (scalar cs).map fun (s, rest) => (.scalar s, rest)

/-- The items of an array up to its end. The last one may be followed by a comma. -/
def exprsFrom : Nat → List Char → Option (Exprs × List Char)
  | 0, _ => none
  | steps + 1, cs =>
    match cs with
    | ']' :: rest => some (.nil, rest)
    | cs => do
      let (e, rest) ← exprFrom steps cs
      match skipGap false rest with
      | ',' :: rest =>
        let (items, rest) ← exprsFrom steps (skipGap false rest)
        return (.cons e items, rest)
      | ']' :: rest => return (.cons e .nil, rest)
      | _ => none

def entriesFrom : Nat → List Char → Option (Entries × List Char)
  | 0, _ => none
  | steps + 1, cs =>
    match cs with
    | '\x7d' :: rest => some (.nil, rest)
    | cs => do
      let (k, rest) ← keyOfEntry cs
      let (e, rest) ← exprFrom steps rest
      match skipGap false rest with
      | ',' :: rest =>
        let (entries, rest) ← entriesFrom steps (skipGap false rest)
        return (.cons k e entries, rest)
      | '\x7d' :: rest => return (.cons k e .nil, rest)
      | _ => none

end

def expr (cs : List Char) : Option (Expr × List Char) := exprFrom (2 * cs.length + 2) cs

/-! ### Items -/

def item : List Char → Option (Item × List Char)
  | '[' :: '[' :: cs => do
    match ← key cs with
    | (k, ']' :: ']' :: rest) => return (.tableArray k, rest)
    | _ => none
  | '[' :: cs => do
    match ← key cs with
    | (k, ']' :: rest) => return (.table k, rest)
    | _ => none
  | cs => do
    let (k, rest) ← keyOfEntry cs
    let (e, rest) ← expr rest
    return (.entry k e, rest)

/-- Nothing but a comment may follow on the same line. -/
def endsLine (cs : List Char) : Bool :=
  (skipBlanks cs).head?.all fun c => isNewline c || c == '#'

def itemsFrom : Nat → List Char → Option (List Item)
  | 0, _ => none
  | steps + 1, cs =>
    match skipGap false cs with
    | [] => some []
    | cs => do
      let (i, rest) ← item cs
      if endsLine rest then return i :: (← itemsFrom steps rest) else none

/-- The characters that a document may hold: no control characters but tabs and line ends, and a
carriage return only before a line feed. -/
def isAllowed : List Char → Bool
  | [] => true
  | '\r' :: '\n' :: cs => isAllowed cs
  | c :: cs => (c.toNat ≥ 32 && c.toNat ≠ 127 || c == '\t' || c == '\n') && isAllowed cs

def withoutMark : List UInt8 → List UInt8
  | 0xff :: 0xfe :: rest => rest
  | 0xfe :: 0xff :: rest => rest
  | 0xef :: 0xbb :: 0xbf :: rest => rest
  | bytes => bytes

def items? (bytes : List UInt8) : Option (List Item) := do
  let text ← Utf8.text? (withoutMark bytes)
  let cs := text.toList
  if isAllowed cs then itemsFrom (cs.length + 1) cs else none

end Linkage.Toml
