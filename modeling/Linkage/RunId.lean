import Linkage.Text.Quoted

/-!
# Run identifiers

A run is identified by sixteen bytes, written as 32 hexadecimal digits in groups of 8, 4, 4, 4 and
12. Reading also takes the digits without hyphens, the `urn:uuid:` form, and any bracketed form.
-/

namespace Linkage

structure RunId where
  bytes : List UInt8
  deriving DecidableEq, Repr

namespace RunId

def zero : RunId := ⟨List.replicate 16 0⟩

def text (id : RunId) : String :=
  let group (start count : Nat) : String := Hex.ofBytes ((id.bytes.drop start).take count)
  "-".intercalate [group 0 4, group 4 2, group 6 2, group 8 2, group 10 6]

inductive ParseError where
  | urnPrefix (bytes : List UInt8)
  | length (n : Nat)
  | format
  deriving DecidableEq, Repr

def ParseError.message : ParseError → String
  | .urnPrefix bytes => "invalid urn prefix: " ++ Quoted.ofBytes bytes
  | .length n => "invalid UUID length: " ++ toString n
  | .format => "invalid UUID format"

def chars (bytes : List UInt8) : List Char := bytes.map fun b => Char.ofNat b.toNat

def ofDigits (digits : List UInt8) : Except ParseError RunId :=
  match Hex.toBytes? (chars digits) with
  | some bytes => .ok ⟨bytes⟩
  | none => .error .format

/-- The hyphenated form; bytes after its 36 are not looked at. -/
def ofHyphenated (s : List UInt8) : Except ParseError RunId :=
  let hyphen : Option UInt8 := some 45
  if [8, 13, 18, 23].all fun i => s[i]? == hyphen then
    let group (start count : Nat) : List UInt8 := (s.drop start).take count
    ofDigits (group 0 8 ++ group 9 4 ++ group 14 4 ++ group 19 4 ++ group 24 12)
  else .error .format

def urn : List Char := "urn:uuid:".toList

def parse (s : String) : Except ParseError RunId :=
  let bytes := Utf8.bytesOf s
  match bytes.length with
  | 36 => ofHyphenated bytes
  | 45 =>
    if (chars (bytes.take 9)).map Char.toLower = urn then ofHyphenated (bytes.drop 9)
    else .error (.urnPrefix (bytes.take 9))
  | 38 => ofHyphenated (bytes.drop 1)
  | 32 => ofDigits bytes
  | n => .error (.length n)

end RunId

end Linkage
