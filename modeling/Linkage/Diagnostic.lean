import Linkage.Text.Template

/-!
# Diagnostics

A reporter counts the diagnostics of a run and writes each on a line of its own. A sink belongs to
one source file and turns byte offsets into lines and columns.
-/

namespace Linkage

/-- Where diagnostic lines go. Lines that cannot be written are lost, and nothing else. -/
inductive Writer where
  | buffer (text : String)
  | discarding
  | failing
  deriving DecidableEq, Repr

def Writer.write (line : String) : Writer → Writer
  | .buffer text => .buffer (text ++ line)
  | .discarding => .discarding
  | .failing => .failing

def Writer.text : Writer → String
  | .buffer text => text
  | _ => ""

structure Reporter where
  count : Nat := 0
  writer : Writer := .buffer ""
  deriving DecidableEq, Repr

namespace Reporter

def hasErrors (r : Reporter) : Bool := 0 < r.count

/-- A diagnostic counts whether or not its line could be written. -/
def write (r : Reporter) (line : String) : Reporter :=
  { count := r.count + 1, writer := r.writer.write line }

def reset (r : Reporter) : Reporter := { r with count := 0 }

end Reporter

/-- The first place from `lo` on at which `p` holds, or `hi` if there is none before it, found by
halving the range. The places at which `p` holds have to come after those at which it does not. -/
def bisect (p : Nat → Bool) (lo hi : Nat) : Nat :=
  if lo < hi then
    let mid := (lo + hi) / 2
    if p mid then bisect p lo mid else bisect p (mid + 1) hi
  else lo
termination_by hi - lo

structure Position where
  line : Nat
  column : Int64
  deriving DecidableEq, Repr

structure Sink where
  name : String
  /-- The offsets of the newline bytes, ascending. -/
  newlines : List Nat
  deriving DecidableEq, Repr

namespace Sink

def newlinesFrom (offset : Nat) : List UInt8 → List Nat
  | [] => []
  | b :: rest =>
    if b = 10 then offset :: newlinesFrom (offset + 1) rest else newlinesFrom (offset + 1) rest

def ofText (name : String) (text : List UInt8) : Sink := ⟨name, newlinesFrom 0 text⟩

def newlinesBefore (s : Sink) (pos : Int64) : Nat :=
  bisect (fun i => (s.newlines[i]?).all fun (n : Nat) => decide (pos.toInt ≤ n)) 0 s.newlines.length

/-- The line counts the newlines before the offset, the column the bytes since the last of them. -/
def position (s : Sink) (pos : Int64) : Position :=
  let before := s.newlinesBefore pos
  let last : Int64 := match before with
    | 0 => -1
    | i + 1 => Int64.ofNat (s.newlines.getD i 0)
  ⟨before + 1, pos - last⟩

/-- The line written for a message. A negative offset stands for no position. -/
def line (s : Sink) (pos : Int64) (message : String) : String :=
  if pos < 0 then s.name ++ "::: " ++ message ++ "\n"
  else
    let p := s.position pos
    s.name ++ "::" ++ toString p.line ++ "." ++ toString p.column.toInt ++ ": " ++ message ++ "\n"

def report (s : Sink) (r : Reporter) (pos : Int64) (message : String) : Reporter :=
  r.write (s.line pos message)

end Sink

end Linkage
