import Linkage.Text.Hex

/-!
# TOML strings

Strings in double quotes know escapes, strings in single quotes do not. Three quotes enclose a
string that may span lines.
-/

namespace Linkage.Toml

def isNewline (c : Char) : Bool := c == '\n' || c == '\r'

def isBlank (c : Char) : Bool := c == ' ' || c == '\t'

/-! ### Escapes -/

inductive EscapeState where
  | plain
  | escaped
  /-- In an escape by number: the digits to come and the value so far. -/
  | digits (left value : Nat)
  /-- In blanks after a backslash, which have to include a line end. -/
  | trimming (sawLineEnd : Bool)

def escapeOf (c : Char) : Option Char :=
  match c with
  | 'b' => some (Char.ofNat 8)
  | 't' => some '\t'
  | 'n' => some '\n'
  | 'f' => some (Char.ofNat 12)
  | 'r' => some '\r'
  | 'e' => some (Char.ofNat 27)
  | '"' => some '"'
  | '\\' => some '\\'
  | _ => none

def escapeDigits (c : Char) : Option Nat :=
  match c with
  | 'x' => some 2
  | 'u' => some 4
  | 'U' => some 8
  | _ => none

def charOf? (n : Nat) : Option Char := if n.isValidChar then some (Char.ofNat n) else none

/-- Replaces the escapes. In a text that may span lines, a backslash at the end of a line removes
all blanks and line ends up to the next other character. -/
def unescapeFrom (multiline : Bool) : EscapeState → List Char → Option (List Char)
  | .plain, [] => some []
  | .escaped, [] => none
  | .digits _ _, [] => none
  | .trimming sawLineEnd, [] => if sawLineEnd then some [] else none
  | .plain, c :: cs =>
    if c = '\\' then unescapeFrom multiline .escaped cs
    else (unescapeFrom multiline .plain cs).map (c :: ·)
  | .escaped, c :: cs =>
    match escapeOf c, escapeDigits c with
    | some e, _ => (unescapeFrom multiline .plain cs).map (e :: ·)
    | none, some n => unescapeFrom multiline (.digits n 0) cs
    | none, none =>
      if multiline && (isBlank c || isNewline c) then
        unescapeFrom multiline (.trimming (isNewline c)) cs
      else none
  | .digits left value, c :: cs =>
    match Hex.value? c with
    | none => none
    | some d =>
      if left ≤ 1 then do
        let e ← charOf? (value * 16 + d)
        return e :: (← unescapeFrom multiline .plain cs)
      else unescapeFrom multiline (.digits (left - 1) (value * 16 + d)) cs
  | .trimming sawLineEnd, c :: cs =>
    if isBlank c || isNewline c then
      unescapeFrom multiline (.trimming (sawLineEnd || isNewline c)) cs
    else if !sawLineEnd then none
    else if c = '\\' then unescapeFrom multiline .escaped cs
    else (unescapeFrom multiline .plain cs).map (c :: ·)

def unescape (multiline : Bool) (cs : List Char) : Option (List Char) :=
  unescapeFrom multiline .plain cs

/-! ### Finding the end -/

def lineUntil (quote : Char) (escapes : Bool) : List Char → Option (List Char × List Char)
  | [] => none
  | c :: cs =>
    if isNewline c then none
    else if c = quote then some ([], cs)
    else match escapes && c == '\\', cs with
      | true, e :: cs =>
        if isNewline e then none
        else (lineUntil quote escapes cs).map fun (t, rest) => (c :: e :: t, rest)
      | _, cs => (lineUntil quote escapes cs).map fun (t, rest) => (c :: t, rest)

/-- Whether the text read so far, last character first, ends in two quotes of which the first one is
not escaped. Closing quotes after them would make a run of six. -/
def endsInTwo (quote : Char) (escapes : Bool) : List Char → Bool
  | a :: b :: rest => a == quote && b == quote && !(escapes && rest.head? == some '\\')
  | _ => false

/-- The text up to three closing quotes, and what follows. One or two quotes right before the
closing ones belong to the text. What was read so far comes last character first. -/
def blockUntil (quote : Char) (escapes : Bool) (read : List Char) :
    List Char → Option (List Char × List Char)
  | [] => none
  | c :: cs =>
    if c = quote then
      match cs with
      | q :: r :: rest =>
        if q = quote ∧ r = quote then
          if rest.head? = some quote then
            if endsInTwo quote escapes read then none
            else blockUntil quote escapes (c :: read) (q :: r :: rest)
          else some (read.reverse, rest)
        else blockUntil quote escapes (c :: read) (q :: r :: rest)
      | cs => blockUntil quote escapes (c :: read) cs
    else match escapes && c == '\\', cs with
      | true, e :: cs => blockUntil quote escapes (e :: c :: read) cs
      | _, cs => blockUntil quote escapes (c :: read) cs

/-- A line end right after the opening quotes is no part of the text. -/
def withoutFirstLineEnd : List Char → List Char
  | '\n' :: cs => cs
  | '\r' :: '\n' :: cs => cs
  | cs => cs

/-! ### Reading -/

def lineString (quote : Char) (cs : List Char) : Option (String × List Char) := do
  let escapes := quote == '"'
  let (raw, rest) ← lineUntil quote escapes cs
  let text ← if escapes then unescape false raw else some raw
  return (String.ofList text, rest)

def blockString (quote : Char) (cs : List Char) : Option (String × List Char) := do
  let escapes := quote == '"'
  let (raw, rest) ← blockUntil quote escapes [] cs
  let text ← if escapes then unescape true (withoutFirstLineEnd raw)
    else some (withoutFirstLineEnd raw)
  return (String.ofList text, rest)

def string (quote : Char) (cs : List Char) : Option (String × List Char) :=
  match cs with
  | q :: r :: rest =>
    if q = quote ∧ r = quote then blockString quote rest else lineString quote cs
  | cs => lineString quote cs

end Linkage.Toml
