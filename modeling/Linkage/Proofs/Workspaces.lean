import Linkage.Session
import Linkage.Proofs.Relocation

/-!
# Runs on a session

A run on a session is a sequence of actions. What an action hands out or makes, a later one refers
to by its number in the run, so a run can use nothing but what it was given itself. What an action
shows is all that a run comes to know.
-/

namespace Linkage

-- ---------------------------------------------------------------------------
-- Actions and answers
-- ---------------------------------------------------------------------------

/-- Something that is done with a session. Symbols, contexts and sinks are numbered in the order in
which they were handed out, blocks and calls in the order in which they were made, all from the
start of the run. -/
inductive Action where
  | intern (name : String)
  | lookupName (name : String)
  | names
  | sameSymbol (x y : Nat)
  | compareSymbols (x y : Nat)
  | checker (file : String) (text : List UInt8) (returnType : Ty) (assertions : Bool)
  | declare (context : Nat) (kind : BindingKind) (name : Nat) (type : Ty)
  | lookup (context name : Nat)
  | bindings (context : Nat)
  | sink (file : String) (text : List UInt8)
  | report (sink : Nat) (pos : Int64) (message : String)
  | reportIn (context : Nat) (pos : Int64) (message : String)
  | position (sink : Nat) (pos : Int64)
  | errors
  | written
  | build (op : Operation)
  | bare
  | cut (block : BlockRef) (n : Nat)
  | addCall (c : Call)
  | resolve (site : CallRef) (targets : List (Option MemberId))
  | block (block : BlockRef)
  | call (site : CallRef)
  | walk (root : Option BlockRef)
  | dump (d : Declarations) (block : BlockRef)
  | link (d : Declarations) (code : Registry) (entry : Option MemberId)
  | cleanup (code : Registry) (p : Program)
  | reset

inductive Answer where
  /-- There is nothing of a number that was given. -/
  | missing
  | done
  | symbol (x : Option (UInt32 × String))
  | names (names : List String)
  | flag (b : Bool)
  | order (o : Ordering)
  | binding (b : Option Binding) (slot : Int)
  | bindings (bindings : List (String × Binding)) (slots : Nat)
  | position (p : Position)
  | text (s : String)
  | count (n : Nat)
  | built (r : Except Fault (Option BlockRef))
  | site (c : CallRef)
  | block (b : Option Block)
  | call (c : Option Call)
  | blocks (rs : Except Fault (List BlockRef))
  | listing (text : Except Fault String)
  | linked (p : Except LinkError Program) (message : Option String)
  | cleaned (p : Program) (failure : Option Failure)

def LinkError.message (d : Declarations) (g : Graph) : LinkError → String
  | .sourceErrors n => sourceText n
  | .failure (.defect e) => e.message d g
  | .failure (.fault f) => f.message

def linkMessage (d : Declarations) (g : Graph) : Except LinkError Program → Option String
  | .ok _ => none
  | .error e => some (e.message d g)

def Writer.since (n : Nat) (w : Writer) : String := String.ofList (w.text.toList.drop n)

-- ---------------------------------------------------------------------------
-- Workspaces
-- ---------------------------------------------------------------------------

structure Workspace where
  /-- The session as the run found it. -/
  origin : Session
  session : Session
  /-- The identifiers that resets take, one after another. -/
  ids : Nat → RunId
  symbols : List Symbol := []
  contexts : List Context := []
  sinks : List Sink := []

namespace Workspace

def start (s : Session) (ids : Nat → RunId) : Workspace := { origin := s, session := s, ids }

def block (w : Workspace) (n : Nat) : BlockRef := w.origin.graph.shift n

def site (w : Workspace) (n : Nat) : CallRef := w.origin.graph.shiftCall n

def withGraph (w : Workspace) (g : Graph) : Workspace :=
  { w with session := { w.session with graph := g } }

def withReporter (w : Workspace) (r : Reporter) : Workspace :=
  { w with session := { w.session with reporter := r } }

def report (w : Workspace) (sink : Option Sink) (pos : Int64) (message : String) :
    Answer × Workspace :=
  match sink with
  | none => (.missing, w)
  | some sink =>
    let reporter := sink.report w.session.reporter pos message
    (.count reporter.count, w.withReporter reporter)

def built (w : Workspace) (x : Except Fault (Option BlockRef) × Graph) : Answer × Workspace :=
  (.built x.1, w.withGraph x.2)

def act (w : Workspace) : Action → Answer × Workspace
  | .intern name =>
    let made := w.session.intern name
    (.symbol (some (made.1.id, made.1.name)),
      { w with session := made.2, symbols := w.symbols ++ [made.1] })
  | .lookupName name =>
    let x := w.session.symbols.lookup name
    (.symbol (x.map fun x => (x.id, x.name)), { w with symbols := w.symbols ++ x.toList })
  | .names => (.names w.session.symbols.all, w)
  | .sameSymbol x y =>
    match w.symbols[x]?, w.symbols[y]? with
    | some x, some y => (.flag (x = y), w)
    | _, _ => (.missing, w)
  | .compareSymbols x y =>
    match w.symbols[x]?, w.symbols[y]? with
    | some x, some y => (.order (x.compare y), w)
    | _, _ => (.missing, w)
  | .checker file text returnType assertions =>
    (.done, { w with
      contexts := w.contexts ++ [Session.checker file text returnType assertions] })
  | .declare c kind x type =>
    match w.contexts[c]?, w.symbols[x]? with
    | some c, some x => (.done, { w with contexts := w.contexts ++ [c.bindAs kind x type] })
    | _, _ => (.missing, w)
  | .lookup c x =>
    match w.contexts[c]?, w.symbols[x]? with
    | some c, some x => (.binding (c.lookup x) (c.slotOf x), w)
    | _, _ => (.missing, w)
  | .bindings c =>
    match w.contexts[c]? with
    | some c => (.bindings (c.scope.toList.map fun entry => (entry.1.name, entry.2)) c.next, w)
    | none => (.missing, w)
  | .sink file text => (.done, { w with sinks := w.sinks ++ [Sink.ofText file text] })
  | .report sink pos message => w.report w.sinks[sink]? pos message
  | .reportIn c pos message => w.report (w.contexts[c]?.map (·.sink)) pos message
  | .position sink pos =>
    match w.sinks[sink]? with
    | some sink => (.position (sink.position pos), w)
    | none => (.missing, w)
  | .errors => (.count w.session.reporter.count, w)
  | .written =>
    (.text (w.session.reporter.writer.since w.origin.reporter.writer.text.length), w)
  | .build op => w.built (w.session.graph.apply (op.relocate w.block w.site))
  | .bare => w.built (.ok (some w.session.graph.bare.1), w.session.graph.bare.2)
  | .cut r n => w.built (Graph.apply.block (w.session.graph.cut (w.block r) n))
  | .addCall c =>
    let made := w.session.graph.addCall c
    (.site made.1, w.withGraph made.2)
  | .resolve site targets =>
    (.done, w.withGraph (w.session.graph.resolve (w.site site) targets))
  | .block r => (.block w.session.graph.blocks[w.block r]?, w)
  | .call site => (.call w.session.graph.calls[w.site site]?, w)
  | .walk root => (.blocks (w.session.graph.walk (root.map w.block)), w)
  | .dump d r => (.listing (w.session.graph.dump d (w.block r)), w)
  | .link d code entry =>
    let linked := w.session.link (code.relocate w.block) entry
    (.linked linked.1 (linkMessage d linked.2.graph linked.1), { w with session := linked.2 })
  | .cleanup code p =>
    let cleaned := p.cleanup (code.relocate w.block) w.session.graph
    (.cleaned cleaned.program cleaned.failure, w.withGraph cleaned.graph)
  | .reset =>
    (.done, { w with session := w.session.reset (w.ids 0), ids := fun n => w.ids (n + 1) })

def run (w : Workspace) : List Action → List Answer × Workspace
  | [] => ([], w)
  | a :: rest => ((w.act a).1 :: ((w.act a).2.run rest).1, ((w.act a).2.run rest).2)

end Workspace

end Linkage
