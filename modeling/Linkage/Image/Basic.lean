import Linkage.Float.Double

/-!
# Program images

The serialized form of a program: tables of classes, members and blocks that refer to each other by
position. A position that may be missing is stored one higher, with zero for none. A list that was
never filled in is told apart from an empty one.
-/

namespace Linkage.Image

structure Class where
  name : String := ""
  /-- One more than the position of the superclass. -/
  super : Int64 := 0
  deriving DecidableEq, Repr

structure Member where
  kind : UInt8 := 0
  /-- The position of the class. -/
  owner : Int64 := 0
  name : String := ""
  type : String := ""
  params : Option (List String) := none
  deriving DecidableEq, Repr

structure Instr where
  op : UInt8 := 0
  type : String := ""
  slot : Int64 := 0
  /-- The arithmetic operation or the condition. -/
  sub : UInt8 := 0
  /-- One more than the position of a member. -/
  member : Int64 := 0
  targets : Option (List Int64) := none
  resolved : Bool := false
  int : Int64 := 0
  float : Double := .zero
  bool : Bool := false
  str : List UInt8 := []
  deriving DecidableEq, Repr

structure Block where
  code : Option (List Instr) := none
  succs : Option (List Int64) := none
  fixed : Bool := false
  deriving DecidableEq, Repr

structure Body where
  member : Int64 := 0
  root : Int64 := 0
  deriving DecidableEq, Repr

end Linkage.Image

namespace Linkage

structure Image where
  version : UInt8 := 0
  runId : String := ""
  classes : Option (List Image.Class) := none
  members : Option (List Image.Member) := none
  blocks : Option (List Image.Block) := none
  bodies : Option (List Image.Body) := none
  entry : Int64 := 0
  linked : Bool := false
  reachable : Option (List Int64) := none
  deriving DecidableEq, Repr

namespace Image

def currentVersion : UInt8 := 1

/-! ### Kinds of members -/

def fieldKind : UInt8 := 1

def methodKind : UInt8 := 2

def ctorKind : UInt8 := 3

/-! ### Operation codes -/

namespace Op

def nop : UInt8 := 1
def const : UInt8 := 2
def load : UInt8 := 3
def store : UInt8 := 4
def arith : UInt8 := 5
def neg : UInt8 := 6
def not : UInt8 := 7
def compare : UInt8 := 8
def dup : UInt8 := 9
def pop : UInt8 := 10
def new : UInt8 := 11
def newArray : UInt8 := 12
def arrayLoad : UInt8 := 13
def arrayStore : UInt8 := 14
def getField : UInt8 := 15
def putField : UInt8 := 16
def ret : UInt8 := 17
def guard : UInt8 := 18
def call : UInt8 := 19

end Op

end Image

end Linkage
