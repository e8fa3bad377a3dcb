import Linkage.Proofs.Interning
import Linkage.Proofs.Workspaces

/-!
# Runs after a reset

A run on a session that was used and reset is shown what it would be shown on a new session: what
was left behind only moves its blocks and calls, and makes the handles of its symbols new ones
(`Workspace.reset_isolates`). Both runs are compared step by step with a run on a new session whose
table of symbols is the first one.
-/

namespace Linkage

-- ---------------------------------------------------------------------------
-- Symbols and scopes
-- ---------------------------------------------------------------------------

namespace SymbolTable

/-- The handle that stands for `x` in a table that goes on from where `old` is. -/
def handleAfter (old : SymbolTable) (x : Symbol) : Symbol :=
  ⟨x.name, x.id, old.serial + x.table, old.made + x.made⟩

def after (old t : SymbolTable) : SymbolTable :=
  ⟨old.serial + t.serial, old.made + t.made,
    t.byName.map fun entry => (entry.1, old.handleAfter entry.2), t.byId.map old.handleAfter⟩

section
variable (old t : SymbolTable) (name : String)

theorem handleAfter_inj {x y : Symbol} : old.handleAfter x = old.handleAfter y ↔ x = y := by
  obtain ⟨name, id, table, made⟩ := x
  obtain ⟨name', id', table', made'⟩ := y
  simp [handleAfter]

theorem lookup_after : (old.after t).lookup name = (t.lookup name).map old.handleAfter := by
  simp only [lookup, after]
  induction t.byName with
  | nil => rfl
  | cons entry rest ih =>
    obtain ⟨other, x⟩ := entry
    simp only [List.map_cons, List.lookup_cons]
    cases name == other with
    | true => rfl
    | false => exact ih

theorem fresh_after : (old.after t).fresh name = old.handleAfter (t.fresh name) := by
  simp [fresh, after, handleAfter]

theorem add_after : (old.after t).add name = old.after (t.add name) := by
  have hfresh := fresh_after old t name
  simp only [after, add] at hfresh ⊢
  simp [hfresh, Nat.add_assoc]

theorem intern_after :
    (old.after t).intern name =
      (old.handleAfter (t.intern name).1, old.after (t.intern name).2) := by
  rw [intern, intern, lookup_after]
  cases t.lookup name with
  | none => simp [fresh_after, add_after]
  | some x => rfl

theorem after_new {old : SymbolTable} (hname : old.byName = []) (hid : old.byId = #[]) :
    old.after {} = old := by
  obtain ⟨serial, made, byName, byId⟩ := old
  simp_all [after]

theorem all_after : (old.after t).all = t.all := by
  simp only [all, after, Array.toList_map, List.map_map]
  rfl

theorem reset_after : (old.after t).reset = old.after t.reset := by
  simp [reset, after]

end

end SymbolTable

namespace Scope

def mapKeys (φ : Symbol → Symbol) : Scope α → Scope α
  | .empty => .empty
  | .node version key value left right =>
    .node version (φ key) value (left.mapKeys φ) (right.mapKeys φ)

section
variable {φ : Symbol → Symbol} (hφ : ∀ x, (φ x).name = x.name)

include hφ

theorem compare_map (x y : Symbol) : (φ x).compare (φ y) = x.compare y := by
  rw [Symbol.compare, hφ, hφ]
  rfl

theorem lookup_mapKeys (x : Symbol) (s : Scope α) : (s.mapKeys φ).lookup (φ x) = s.lookup x := by
  induction s with
  | empty => rfl
  | node version key value left right ihl ihr =>
    rw [mapKeys, lookup, lookup, compare_map hφ, ihl, ihr]

theorem update?_mapKeys (same : α → α → Bool) (version : Nat) (x : Symbol) (value : α)
    (s : Scope α) :
    (s.mapKeys φ).update? same version (φ x) value =
      (s.update? same version x value).map (mapKeys φ) := by
  induction s with
  | empty => rfl
  | node v key old left right ihl ihr =>
    rw [mapKeys, update?, update?, compare_map hφ, ihl, ihr]
    cases key.compare x with
    | lt => simp [Function.comp_def, mapKeys]
    | gt => simp [Function.comp_def, mapKeys]
    | eq =>
      simp only
      split <;> rfl

theorem update_mapKeys (same : α → α → Bool) (version : Nat) (x : Symbol) (value : α)
    (s : Scope α) :
    (s.mapKeys φ).update same version (φ x) value =
      (s.update same version x value).mapKeys φ := by
  rw [update, update, update?_mapKeys hφ]
  cases s.update? same version x value <;> rfl

end

theorem toList_mapKeys (φ : Symbol → Symbol) (s : Scope α) :
    (s.mapKeys φ).toList = s.toList.map fun entry => (φ entry.1, entry.2) := by
  induction s with
  | empty => rfl
  | node version key value left right ihl ihr => simp [mapKeys, toList, ihl, ihr]

end Scope

def Context.after (old : SymbolTable) (c : Context) : Context :=
  { c with scope := c.scope.mapKeys old.handleAfter }

section
variable (old : SymbolTable) (c : Context) (x : Symbol)

theorem Context.bindAs_after (kind : BindingKind) (type : Ty) :
    (c.after old).bindAs kind (old.handleAfter x) type = (c.bindAs kind x type).after old := by
  have hscope := Scope.update_mapKeys (φ := old.handleAfter) (fun _ => rfl) Binding.equal c.next x
    ⟨kind, type, c.next⟩ c.scope
  simp only [bindAs, after]
  rw [hscope]

theorem Context.lookup_after : (c.after old).lookup (old.handleAfter x) = c.lookup x :=
  Scope.lookup_mapKeys (φ := old.handleAfter) (fun _ => rfl) x c.scope

end

-- ---------------------------------------------------------------------------
-- Writers
-- ---------------------------------------------------------------------------

namespace Writer

theorem write_empty (w : Writer) : w.write "" = w := by
  cases w <;> simp [write]

theorem write_write (w : Writer) (text line : String) :
    (w.write text).write line = w.write (text ++ line) := by
  cases w <;> simp [write, String.append_assoc]

theorem since_buffer (text line : String) :
    (buffer (text ++ line)).since text.length = line := by
  have hlen : text.length = text.toList.length := String.length_toList.symm
  simp [since, Writer.text, hlen]

/-- Only the kind of a writer decides what is written to it. -/
theorem since_write (w : Writer) (earlier line : String) :
    ((w.write earlier).write line).since (w.write earlier).text.length =
      (w.write line).since w.text.length := by
  cases w with
  | buffer text => exact (since_buffer _ line).trans (since_buffer text line).symm
  | discarding => rfl
  | failing => rfl

end Writer

-- ---------------------------------------------------------------------------
-- Answers
-- ---------------------------------------------------------------------------

def LinkError.relocate (β : BlockRef → BlockRef) : LinkError → LinkError
  | .sourceErrors n => .sourceErrors n
  | .failure f => .failure (f.rename id β)

/-- An answer that is the same but for the places of blocks and calls, which are behind `old`. -/
def Answer.after (old : Graph) : Answer → Answer
  | .built r => .built (r.map (·.map old.shift))
  | .site c => .site (old.shiftCall c)
  | .block b => .block (b.map (Block.relocate old.shift old.shiftCall))
  | .blocks rs => .blocks (rs.map (List.map old.shift))
  | .linked p message => .linked (p.mapError (LinkError.relocate old.shift)) message
  | .cleaned p failure => .cleaned p (failure.map (Failure.rename id old.shift))
  | answer => answer

theorem LinkError.relocate_eq {β : BlockRef → BlockRef} (hβ : ∀ r, β r = r) (e : LinkError) :
    e.relocate β = e := by
  cases e with
  | sourceErrors n => rfl
  | failure f => exact congrArg LinkError.failure (f.rename_eq hβ)

theorem Answer.after_empty (answer : Answer) : answer.after {} = answer := by
  have hshift : ∀ r, ({} : Graph).shift r = r := Nat.zero_add
  have hshift' : ∀ c, ({} : Graph).shiftCall c = c := Nat.zero_add
  cases answer with
  | built r => cases r <;> simp [after, Except.map, funext hshift]
  | site c => exact congrArg Answer.site (hshift' c)
  | block b => simp [after, funext (Block.relocate_eq hshift hshift')]
  | blocks rs => cases rs <;> simp [after, Except.map, funext hshift]
  | linked p message =>
    cases p with
    | ok p => rfl
    | error e => simp [after, Except.mapError, e.relocate_eq hshift]
  | cleaned p failure => simp [after, funext (Failure.rename_eq hshift)]
  | _ => rfl

-- ---------------------------------------------------------------------------
-- Runs in step
-- ---------------------------------------------------------------------------

/-- A session that goes on from `old` like another one from the start. -/
structure Session.Follows (old : Session) (writer : Writer) (s s' : Session) : Prop where
  symbols : s'.symbols = old.symbols.after s.symbols
  graph : s'.graph = old.graph.after s.graph
  count : s'.reporter.count = s.reporter.count
  text : ∃ text, s.reporter.writer = writer.write text ∧
    s'.reporter.writer = old.reporter.writer.write text

namespace Session.Follows

variable {old s s' : Session} {writer : Writer}

theorem withGraph (h : Follows old writer s s') {g g' : Graph} (hg : g' = old.graph.after g) :
    Follows old writer { s with graph := g } { s' with graph := g' } :=
  ⟨h.symbols, hg, h.count, h.text⟩

theorem intern (h : Follows old writer s s') (name : String) :
    (s'.intern name).1 = old.symbols.handleAfter (s.intern name).1 ∧
      Follows old writer (s.intern name).2 (s'.intern name).2 := by
  have hintern := SymbolTable.intern_after old.symbols s.symbols name
  rw [← h.symbols] at hintern
  exact ⟨congrArg (·.1) hintern, congrArg (·.2) hintern, h.graph, h.count, h.text⟩

theorem report (h : Follows old writer s s') (sink : Sink) (pos : Int64) (message : String) :
    Follows old writer { s with reporter := sink.report s.reporter pos message }
      { s' with reporter := sink.report s'.reporter pos message } := by
  obtain ⟨text, htext, htext'⟩ := h.text
  refine ⟨h.symbols, h.graph, congrArg (· + 1) h.count, text ++ sink.line pos message, ?_, ?_⟩
  · rw [← Writer.write_write, ← htext]
    rfl
  · rw [← Writer.write_write, ← htext']
    rfl

theorem reset (h : Follows old writer s s') (id id' : RunId) :
    Follows old writer (s.reset id) (s'.reset id') := by
  refine ⟨?_, ?_, rfl, h.text⟩
  · rw [Session.reset, h.symbols]
    exact SymbolTable.reset_after old.symbols s.symbols
  · rw [Session.reset, h.graph]
    rfl

theorem link (h : Follows old writer s s') (code : Registry) (entry : Option MemberId) :
    (s'.link (code.relocate old.graph.shift) entry).1 =
        (s.link code entry).1.mapError (LinkError.relocate old.graph.shift) ∧
      Follows old writer (s.link code entry).2
        (s'.link (code.relocate old.graph.shift) entry).2 := by
  have herrors : s'.reporter.hasErrors = s.reporter.hasErrors := by
    simp only [Reporter.hasErrors, h.count]
  have hcreate := Program.create_after old.graph s.graph code entry
  rw [← h.graph] at hcreate
  unfold Session.link
  rw [herrors, hcreate, h.count]
  split
  · exact ⟨rfl, h⟩
  · rcases Program.create code s.graph entry with ⟨f | p, g⟩
    · exact ⟨rfl, h.withGraph rfl⟩
    · exact ⟨rfl, h.withGraph rfl⟩

end Session.Follows

theorem Session.symbols_link (s : Session) (code : Registry) (entry : Option MemberId) :
    (s.link code entry).2.symbols = s.symbols := by
  unfold Session.link
  split
  · rfl
  · rcases Program.create code s.graph entry with ⟨f | p, g⟩ <;> rfl

theorem LinkError.message_after (d : Declarations) (old g : Graph) (e : LinkError) :
    (e.relocate old.shift).message d (old.after g) = e.message d g := by
  cases e with
  | sourceErrors n => rfl
  | failure f =>
    cases f with
    | defect e => exact e.message_after d old g
    | fault f => rfl

namespace Workspace

/-- A run on a session that goes on from `old`, in step with a run on a new session. -/
structure Follows (old : Session) (writer : Writer) (w w' : Workspace) : Prop where
  graph : w.origin.graph = {}
  output : w.origin.reporter.writer = writer
  origin : w'.origin = old
  /-- The lines go to writers of the same kind. -/
  kind : ∃ text, old.reporter.writer = writer.write text
  session : Session.Follows old writer w.session w'.session
  symbols : w'.symbols = w.symbols.map old.symbols.handleAfter
  indexed : w.session.symbols.Indexed
  /-- No symbol is from a time to come. -/
  times : ∀ x ∈ w.symbols, x.made < w.session.symbols.made
  contexts : w'.contexts = w.contexts.map (Context.after old.symbols)
  sinks : w'.sinks = w.sinks

namespace Follows

variable {old : Session} {writer : Writer} {w w' : Workspace} (h : Follows old writer w w')

include h

theorem block (r : BlockRef) : w.block r = r ∧ w'.block r = old.graph.shift r := by
  rw [Workspace.block, h.graph, Workspace.block, h.origin]
  exact ⟨Nat.zero_add r, rfl⟩

theorem site (c : CallRef) : w.site c = c ∧ w'.site c = old.graph.shiftCall c := by
  rw [Workspace.site, h.graph, Workspace.site, h.origin]
  exact ⟨Nat.zero_add c, rfl⟩

theorem withSession {s s' : Session} (hs : Session.Follows old writer s s')
    (hindexed : s.symbols.Indexed) (hmade : w.session.symbols.made ≤ s.symbols.made) :
    Follows old writer { w with session := s } { w' with session := s' } :=
  { h with
    session := hs
    indexed := hindexed
    times := fun x hx => (h.times x hx).trans_le hmade }

theorem withGraph {g g' : Graph} (hg : g' = old.graph.after g) :
    Follows old writer (w.withGraph g) (w'.withGraph g') :=
  h.withSession (h.session.withGraph hg) h.indexed (Nat.le_refl _)

theorem handOut {xs : List Symbol} (hxs : ∀ x ∈ xs, x.made < w.session.symbols.made) :
    Follows old writer { w with symbols := w.symbols ++ xs }
      { w' with symbols := w'.symbols ++ xs.map old.symbols.handleAfter } :=
  { h with
    symbols := by rw [h.symbols, List.map_append]
    times := fun x hx => (List.mem_append.mp hx).elim (h.times x) (hxs x) }

theorem addContext (c : Context) :
    Follows old writer { w with contexts := w.contexts ++ [c] }
      { w' with contexts := w'.contexts ++ [c.after old.symbols] } :=
  { h with contexts := by rw [h.contexts, List.map_append, List.map_singleton] }

theorem symbol (x : Nat) : w'.symbols[x]? = (w.symbols[x]?).map old.symbols.handleAfter := by
  rw [h.symbols, List.getElem?_map]

theorem context (c : Nat) : w'.contexts[c]? = (w.contexts[c]?).map (Context.after old.symbols) := by
  rw [h.contexts, List.getElem?_map]

theorem report (sink : Option Sink) (pos : Int64) (message : String) :
    (w'.report sink pos message).1 = (w.report sink pos message).1.after old.graph ∧
      Follows old writer (w.report sink pos message).2 (w'.report sink pos message).2 := by
  cases sink with
  | none => exact ⟨rfl, h⟩
  | some sink =>
    refine ⟨congrArg (fun n => Answer.count (n + 1)) h.session.count, ?_⟩
    exact h.withSession (h.session.report sink pos message) h.indexed (Nat.le_refl _)

theorem built {x x' : Except Fault (Option BlockRef) × Graph}
    (hx : x' = (x.1.map (·.map old.graph.shift), old.graph.after x.2)) :
    (w'.built x').1 = (w.built x).1.after old.graph ∧
      Follows old writer (w.built x).2 (w'.built x').2 := by
  subst hx
  exact ⟨rfl, h.withGraph rfl⟩

theorem act (a : Action) :
    (w'.act a).1 = (w.act a).1.after old.graph ∧
      Follows old writer (w.act a).2 (w'.act a).2 := by
  -- the numbers that the new run gives and takes are the places themselves
  have hblock : ∀ r, w.block r = r := fun r => (h.block r).1
  have hsite : ∀ c, w.site c = c := fun c => (h.site c).1
  have hblock' : w'.block = old.graph.shift := funext fun r => (h.block r).2
  have hsite' : w'.site = old.graph.shiftCall := funext fun c => (h.site c).2
  cases a with
  | intern name =>
    obtain ⟨hx, hs⟩ := h.session.intern name
    have hindexed : (w.session.intern name).2.symbols.Indexed := h.indexed.intern name
    have hnew : ∀ x ∈ [(w.session.intern name).1],
        x.made < (w.session.intern name).2.symbols.made :=
      List.forall_mem_singleton.mpr
        (hindexed.made_of_lookup (w.session.symbols.lookup_intern_self name))
    simp only [Workspace.act, hx]
    exact ⟨rfl, (h.withSession hs hindexed (w.session.symbols.made_le_intern name)).handOut hnew⟩
  | lookupName name =>
    have hx := SymbolTable.lookup_after old.symbols w.session.symbols name
    rw [← h.session.symbols] at hx
    have hknown : ∀ x ∈ (w.session.symbols.lookup name).toList, x.made < w.session.symbols.made :=
      fun x hx => h.indexed.made_of_lookup (Option.mem_toList.mp hx)
    simp only [Workspace.act, hx, Option.map_map, Option.toList_map]
    exact ⟨rfl, h.handOut hknown⟩
  | names =>
    refine ⟨congrArg Answer.names ?_, h⟩
    rw [h.session.symbols, SymbolTable.all_after]
  | sameSymbol x y =>
    simp only [Workspace.act, h.symbol]
    cases w.symbols[x]? with
    | none => exact ⟨rfl, h⟩
    | some x =>
      cases w.symbols[y]? with
      | none => exact ⟨rfl, h⟩
      | some y =>
        exact ⟨congrArg Answer.flag (decide_eq_decide.mpr old.symbols.handleAfter_inj), h⟩
  | compareSymbols x y =>
    simp only [Workspace.act, h.symbol]
    cases w.symbols[x]? <;> cases w.symbols[y]? <;> exact ⟨rfl, h⟩
  | checker file text returnType assertions =>
    exact ⟨rfl, h.addContext (Session.checker file text returnType assertions)⟩
  | declare c kind x type =>
    simp only [Workspace.act, h.symbol, h.context]
    cases w.contexts[c]? with
    | none => exact ⟨rfl, h⟩
    | some c =>
      cases w.symbols[x]? with
      | none => exact ⟨rfl, h⟩
      | some x =>
        simp only [Option.map_some, Context.bindAs_after]
        exact ⟨rfl, h.addContext (c.bindAs kind x type)⟩
  | lookup c x =>
    simp only [Workspace.act, h.symbol, h.context]
    cases w.contexts[c]? with
    | none => exact ⟨rfl, h⟩
    | some c =>
      cases w.symbols[x]? with
      | none => exact ⟨rfl, h⟩
      | some x =>
        refine ⟨?_, h⟩
        simp only [Option.map_some, Context.slotOf, Context.lookup_after]
        rfl
  | bindings c =>
    simp only [Workspace.act, h.context]
    cases w.contexts[c]? with
    | none => exact ⟨rfl, h⟩
    | some c =>
      refine ⟨?_, h⟩
      simp only [Option.map_some, Context.after, Scope.toList_mapKeys, List.map_map]
      rfl
  | sink file text =>
    exact ⟨rfl, { h with sinks := congrArg (· ++ [Sink.ofText file text]) h.sinks }⟩
  | report sink pos message =>
    simp only [Workspace.act, h.sinks]
    exact h.report _ pos message
  | reportIn c pos message =>
    have hsink : w'.contexts[c]?.map (·.sink) = w.contexts[c]?.map (·.sink) := by
      rw [h.context, Option.map_map]
      rfl
    simp only [Workspace.act, hsink]
    exact h.report _ pos message
  | position sink pos =>
    simp only [Workspace.act, h.sinks]
    cases w.sinks[sink]? <;> exact ⟨rfl, h⟩
  | errors => exact ⟨congrArg Answer.count h.session.count, h⟩
  | written =>
    obtain ⟨earlier, hkind⟩ := h.kind
    obtain ⟨text, htext, htext'⟩ := h.session.text
    refine ⟨congrArg Answer.text ?_, h⟩
    rw [h.origin, h.output, htext, htext', hkind]
    exact writer.since_write earlier text
  | build op =>
    refine h.built ?_
    rw [op.relocate_eq hblock hsite, hblock', hsite', h.session.graph]
    exact Graph.apply_after old.graph w.session.graph op
  | bare => exact h.built (by rw [h.session.graph, Graph.bare_after]; rfl)
  | cut r n =>
    refine h.built (Graph.block_after old.graph ?_)
    rw [hblock, hblock', h.session.graph, Graph.cut_after]
  | addCall c =>
    have hcall := Graph.addCall_after old.graph w.session.graph c
    rw [← h.session.graph] at hcall
    exact ⟨congrArg (fun made : CallRef × Graph => Answer.site made.1) hcall,
      h.withGraph (congrArg (·.2) hcall)⟩
  | resolve site targets =>
    refine ⟨rfl, h.withGraph ?_⟩
    rw [hsite, hsite', h.session.graph]
    exact Graph.resolve_after old.graph w.session.graph site targets
  | block r =>
    refine ⟨congrArg Answer.block ?_, h⟩
    rw [hblock, hblock', h.session.graph, Graph.getElem?_blocks_after]
  | call site =>
    refine ⟨congrArg Answer.call ?_, h⟩
    rw [hsite, hsite', h.session.graph, Graph.getElem?_calls_after]
  | walk root =>
    refine ⟨congrArg Answer.blocks ?_, h⟩
    have hroot : root.map w.block = root := by simp [funext hblock]
    rw [hroot, hblock', h.session.graph, Graph.walk_after]
  | dump d r =>
    refine ⟨congrArg Answer.listing ?_, h⟩
    rw [hblock, hblock', h.session.graph, Graph.dump_after]
  | link d code entry =>
    obtain ⟨hlinked, hs⟩ := h.session.link code entry
    have hcode : code.relocate w.block = code := Registry.relocate_eq hblock code
    have hsymbols := w.session.symbols_link code entry
    simp only [Workspace.act, hcode, hblock', hlinked, hs.graph]
    refine ⟨?_, h.withSession hs (hsymbols ▸ h.indexed) (congrArg SymbolTable.made hsymbols).ge⟩
    cases (w.session.link code entry).1 with
    | ok p => rfl
    | error e => simp [Answer.after, Except.mapError, linkMessage, LinkError.message_after]
  | cleanup code p =>
    have hcode : code.relocate w.block = code := Registry.relocate_eq hblock code
    have hcleaned := Program.cleanup_after old.graph w.session.graph code p
    rw [← h.session.graph] at hcleaned
    simp only [Workspace.act, hcode, hblock', hcleaned]
    exact ⟨rfl, h.withGraph rfl⟩
  | reset =>
    have hreset := h.withSession (h.session.reset (w.ids 0) (w'.ids 0))
      (SymbolTable.Indexed.reset w.session.symbols) (Nat.le_refl _)
    exact ⟨rfl, { hreset with }⟩

theorem run (actions : List Action) :
    (w'.run actions).1 = (w.run actions).1.map (Answer.after old.graph) ∧
      Follows old writer (w.run actions).2 (w'.run actions).2 := by
  induction actions generalizing w w' with
  | nil => exact ⟨rfl, h⟩
  | cons a rest ih =>
    obtain ⟨hanswer, hnext⟩ := h.act a
    obtain ⟨hanswers, hend⟩ := ih hnext
    exact ⟨congrArg₂ List.cons hanswer hanswers, hend⟩

end Follows

end Workspace

-- ---------------------------------------------------------------------------
-- Isolation
-- ---------------------------------------------------------------------------

def Session.fresh (id : RunId) (serial : Nat) (writer : Writer) : Session :=
  { id, symbols := { serial }, reporter := { writer } }

/-- A session with nothing in it that counts: new, or just reset. -/
structure Session.Blank (s : Session) : Prop where
  byName : s.symbols.byName = []
  byId : s.symbols.byId = #[]
  issued : s.graph.issued = 0
  count : s.reporter.count = 0

theorem Session.blank_fresh (id : RunId) (serial : Nat) (writer : Writer) :
    (Session.fresh id serial writer).Blank := ⟨rfl, rfl, rfl, rfl⟩

theorem Session.blank_reset (s : Session) (id : RunId) : (s.reset id).Blank :=
  ⟨rfl, rfl, rfl, rfl⟩

namespace Workspace

theorem follows_start {old : Session} (hold : old.Blank) {writer : Writer} {text : String}
    (hwriter : old.reporter.writer = writer.write text) (id : RunId) (ids ids' : Nat → RunId) :
    Follows old writer (start (Session.fresh id 0 writer) ids) (start old ids') where
  graph := rfl
  output := rfl
  origin := rfl
  kind := ⟨text, hwriter⟩
  session := by
    refine ⟨?_, ?_, hold.count, "", (writer.write_empty).symm, (Writer.write_empty _).symm⟩
    · exact (SymbolTable.after_new hold.byName hold.byId).symm
    · exact (Graph.after_empty hold.issued).symm
  symbols := rfl
  indexed := SymbolTable.indexed_new 0 0
  times := nofun
  contexts := rfl
  sinks := rfl

/-- A run on a session that was used and reset shows what it shows on a new session, and none of its
symbols is one that was handed out before. -/
theorem reset_isolates (writer : Writer) (id id' : RunId) (serial serial' : Nat)
    (ids ids' : Nat → RunId) (history later : List Action) :
    let used := ((start (Session.fresh id serial writer) ids).run history).2
    let reset := (used.act .reset).2
    let again := (start reset.session reset.ids).run later
    let alone := (start (Session.fresh id' serial' writer) ids').run later
    again.1 = alone.1.map (Answer.after reset.session.graph) ∧
      ∀ x ∈ used.symbols, ∀ y ∈ again.2.symbols, x ≠ y := by
  intro used reset again alone
  have hempty : writer = writer.write "" := writer.write_empty.symm
  have hfirst := follows_start (Session.blank_fresh id serial writer) hempty id ids ids
  have hused := (hfirst.run history).2
  obtain ⟨text, -, htext⟩ := hused.session.text
  have hblank : reset.session.Blank := used.session.blank_reset (used.ids 0)
  have hagain := (follows_start hblank htext id ids reset.ids).run later
  have hother := follows_start (Session.blank_fresh id' serial' writer) hempty id ids ids'
  have halone := hother.run later
  have hsame : alone.1 = ((start (Session.fresh id 0 writer) ids).run later).1 := by
    rw [halone.1]
    exact (List.map_congr_left fun answer _ => answer.after_empty).trans (List.map_id' _)
  refine ⟨hsame ▸ hagain.1, ?_⟩
  -- the reset is a time that is later than every symbol before it and no later than any after it
  intro x hx y hy heq
  obtain ⟨x₀, hx₀, rfl⟩ := List.mem_map.mp (hused.symbols ▸ hx)
  obtain ⟨y₀, -, rfl⟩ := List.mem_map.mp (hagain.2.symbols ▸ hy)
  have hpast := hused.times x₀ hx₀
  have hnow : used.session.symbols.made = 0 + _ := congrArg SymbolTable.made hused.session.symbols
  have htimes : 0 + x₀.made = used.session.symbols.made + y₀.made := congrArg Symbol.made heq
  omega

-- a name, a block and an error are forgotten: the next name and block are the first ones again
example :
    let used := ((start (Session.fresh .zero 0 .discarding) fun _ => .zero).run
      [.intern "x", .build .pivot, .sink "A" [], .report 0 (-1) "boom"]).2
    ((start (used.act .reset).2.session used.ids).run
      [.intern "x", .build .pivot, .block 0, .errors]).1 =
      [.symbol (some (0, "x")), .built (.ok (some 1)), .block (some ⟨0, [.nop], [], false, true⟩),
        .count 0] := rfl

end Workspace

end Linkage
