/-!
# Paths

Slash-separated paths as text. Nothing here looks at files, so cleaning takes `a/..` for the empty
path whether or not `a` is a directory. A path is a sequence of characters; bytes that are no UTF-8
have no place in it, although a file may be named by them.
-/

namespace Linkage.Path

/-- The parts between slashes. There is one more part than there are slashes. -/
def parts : List Char → List (List Char)
  | [] => [[]]
  | c :: cs =>
    if c = '/' then [] :: parts cs
    else match parts cs with
      | [] => [[c]]
      | p :: ps => (c :: p) :: ps

def joined (ps : List (List Char)) : List Char := ['/'].intercalate ps

def isAbsolute (path : String) : Bool := path.toList.head? == some '/'

/-- Takes one part into account. The parts kept so far come last one first. -/
def cleanStep (rooted : Bool) (kept : List (List Char)) (part : List Char) : List (List Char) :=
  if part = [] ∨ part = ['.'] then kept
  else if part = ['.', '.'] then
    match kept with
    | [] => if rooted then [] else [part]
    | last :: rest => if last = ['.', '.'] then part :: kept else rest
  else part :: kept

/-- The shortest equivalent path: no empty part, no `.`, and `..` only at the start of a relative
path. -/
def clean (path : String) : String :=
  let rooted := isAbsolute path
  let kept := ((parts path.toList).foldl (cleanStep rooted) []).reverse
  match rooted, joined kept with
  | true, cs => String.ofList ('/' :: cs)
  | false, [] => "."
  | false, cs => String.ofList cs

/-- A path below another, cleaned. An empty path on either side adds nothing. -/
def join (base path : String) : String :=
  if base.isEmpty then if path.isEmpty then "" else clean path
  else clean (base ++ "/" ++ path)

def absolute (cwd path : String) : String :=
  if isAbsolute path then clean path else join cwd path

/-! ### The last element -/

def upToLast (path : List Char) : List Char := (path.reverse.dropWhile (· ≠ '/')).reverse

def dir (path : String) : String := clean (String.ofList (upToLast path.toList))

/-- Goes backwards to a dot, with what is behind it. A slash ends the search. -/
def extensionFrom : (before behind : List Char) → List Char
  | [], _ => []
  | c :: before, behind =>
    if c = '/' then []
    else if c = '.' then c :: behind
    else extensionFrom before (c :: behind)

def extension (path : List Char) : List Char := extensionFrom path.reverse []

def trimSuffix (text suffix : List Char) : List Char :=
  if suffix.isSuffixOf text then text.take (text.length - suffix.length) else text

def replaceExtension (path suffix : String) : String :=
  String.ofList (trimSuffix path.toList (extension path.toList)) ++ suffix

/-- A directory, the directory that holds it, and so on up to the root. Going up makes a path
shorter, so as many steps as it has characters are enough. -/
def ancestorsFrom : Nat → String → List String
  | 0, path => [path]
  | n + 1, path => if dir path = path then [path] else path :: ancestorsFrom n (dir path)

def ancestors (path : String) : List String := ancestorsFrom path.length path

end Linkage.Path
