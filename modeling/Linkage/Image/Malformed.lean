import Linkage.RunId

/-!
# Malformed images

Why the content of an image, whose bytes are in order, is refused.
-/

namespace Linkage.Image

/-- What part of the image a reason was met in, if the reason does not say so itself. -/
inductive Place where
  | entry
  | body (index : Nat)
  | member (index : Nat)
  | instruction (block index : Nat)
  deriving DecidableEq, Repr

inductive Malformed where
  | version (v : UInt8)
  | runId (e : RunId.ParseError)
  | unnamedClass (index : Nat)
  | superOutOfRange (name : String) (super : Int64)
  | inheritanceCycle (name : String)
  | memberClass (index : Nat) (owner : Int64)
  | fieldType (index : Nat) (text : String)
  | resultType (index : Nat) (text : String)
  | memberKind (index : Nat) (kind : UInt8)
  | emptyBlock (index : Nat)
  | successor (index : Nat) (succ : Int64)
  | codeOutOfRange (index : Int64)
  | notCode (index : Int64)
  | rootOutOfRange (index : Nat) (root : Int64)
  | twoBodies (index : Nat) (signature : String)
  | reachableOutOfRange (index : Int64)
  | reference (index : Int64)
  | notField (index : Int64)
  | notCallable (index : Int64)
  | noElement (text : String)
  | classReference (text : String)
  | unknownType (text : String)
  | untypedParameter (index : Nat)
  | notClass (text : String)
  | arithmeticOp (sub : UInt8)
  | condition (sub : UInt8)
  | unresolvedTargets (signature : String)
  | opcode (op : UInt8)
  | constantType (text : String)
  | within (place : Place) (reason : Malformed)
  deriving DecidableEq, Repr

def Place.text : Place → String
  | .entry => " (entry)"
  | .body i => " (body " ++ toString i ++ ")"
  | .member i => " (member " ++ toString i ++ ")"
  | .instruction b i => " (block " ++ toString b ++ ", instruction " ++ toString i ++ ")"

namespace Malformed

private def num (n : Int64) : String := toString n.toInt

private def code (n : UInt8) : String := toString n.toNat

def text : Malformed → String
  | .version v => "unsupported version " ++ code v
  | .runId e => "run id: " ++ e.message
  | .unnamedClass i => "class " ++ toString i ++ " has no name"
  | .superOutOfRange name super => "class " ++ name ++ ": super " ++ num super ++ " out of range"
  | .inheritanceCycle name => "class " ++ name ++ ": inheritance cycle"
  | .memberClass i owner => "member " ++ toString i ++ ": class " ++ num owner ++ " out of range"
  | .fieldType i t => "member " ++ toString i ++ ": bad field type " ++ Quoted.ofString t
  | .resultType i t => "member " ++ toString i ++ ": bad result type " ++ Quoted.ofString t
  | .memberKind i kind => "member " ++ toString i ++ ": unknown kind " ++ code kind
  | .emptyBlock i => "block " ++ toString i ++ " has no instructions"
  | .successor i succ => "block " ++ toString i ++ ": successor " ++ num succ ++ " out of range"
  | .codeOutOfRange i => "member " ++ num i ++ " out of range"
  | .notCode i => "member " ++ num i ++ " is not a method or constructor"
  | .rootOutOfRange i root => "body " ++ toString i ++ ": root " ++ num root ++ " out of range"
  | .twoBodies i signature => "body " ++ toString i ++ ": " ++ signature ++ " has two bodies"
  | .reachableOutOfRange i => "reachable member " ++ num i ++ " out of range"
  | .reference i => "member reference " ++ num i ++ " out of range"
  | .notField i => "member reference " ++ num i ++ " is not a field"
  | .notCallable i => "member reference " ++ num i ++ " is not callable"
  | .noElement t => "array type " ++ Quoted.ofString t ++ " has no element"
  | .classReference t => "bad class reference " ++ Quoted.ofString t
  | .unknownType t => "unknown type " ++ Quoted.ofString t
  | .untypedParameter i => "parameter " ++ toString i ++ " has no type"
  | .notClass t => Quoted.ofString t ++ " is not a class"
  | .arithmeticOp sub => "unknown arithmetic op " ++ code sub
  | .condition sub => "unknown condition " ++ code sub
  | .unresolvedTargets signature => "unresolved call to " ++ signature ++ " lists targets"
  | .opcode op => "unknown opcode " ++ code op
  | .constantType t => "constant of type " ++ Quoted.ofString t
  | .within place reason => reason.text ++ place.text

def message (m : Malformed) : String := "wire: malformed image: " ++ m.text

end Malformed

end Linkage.Image
