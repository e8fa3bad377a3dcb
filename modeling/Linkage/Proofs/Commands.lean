import Linkage.Command.Run
import Linkage.Proofs.Filing

/-!
# What commands do to files

A command reads all it needs and works everything out before it writes, so it either comes to its
end and has changed the output file, or has changed nothing. Only the log is opened before.
-/

namespace Linkage

def ReadOnly (x : StateM σ α) : Prop := ∀ s, (x.run s).2 = s

section
variable {x : StateM σ α}

theorem ReadOnly.run (h : ReadOnly x) (s : σ) : x.run s = ((x.run s).1, s) := Prod.ext rfl (h s)

theorem ReadOnly.pure (a : α) : ReadOnly (pure a : StateM σ α) := fun _ => rfl

theorem ReadOnly.bind {f : α → StateM σ β} (hx : ReadOnly x) (hf : ∀ a, ReadOnly (f a)) :
    ReadOnly (x >>= f) := by
  intro s
  rw [StateT.run_bind, hx.run s]
  exact hf _ s

end

namespace FileSystem

variable {σ : Type} [FileAccess (StateM σ)]

def IsLog (fs : FileSystem σ) (s : σ) (log : Option String) (at_ : fs.Place) : Prop :=
  ∃ path ∈ log, fs.place s path = some at_

def SameBut (fs : FileSystem σ) (apart : fs.Place → Prop) (s s' : σ) : Prop :=
  ∀ at_, ¬ apart at_ → fs.file s' at_ = fs.file s at_

/-- What may have become of a file system once the log is open. -/
structure Opened (fs : FileSystem σ) (log : Option String) (s s' : σ) : Prop where
  place : fs.place s' = fs.place s
  same : fs.SameBut (fs.IsLog s log) s s'
  read : ∀ path bytes, ((FileAccess.read path : StateM σ _).run s').1 = .ok bytes →
    bytes = [] ∨ ((FileAccess.read path : StateM σ _).run s).1 = .ok bytes

section
variable {fs : FileSystem σ} {log : Option String} {s s' : σ}

theorem SameBut.refl (apart : fs.Place → Prop) : fs.SameBut apart s s := fun _ _ => rfl

theorem Opened.refl (log : Option String) : fs.Opened log s s :=
  ⟨rfl, .refl _, fun _ _ h => .inr h⟩

end

-- ---------------------------------------------------------------------------
-- Settings
-- ---------------------------------------------------------------------------

theorem readOnly_load (fs : FileSystem σ) (dir : String) :
    ReadOnly (Manifest.load dir : StateM σ _) := by
  refine .bind (fs.read _) fun r => ?_
  split
  · exact .pure _
  · split
    · exact .pure _
    · exact .bind fs.workingDirectory fun cwd => .pure _

theorem readOnly_loadFirst (fs : FileSystem σ) (dirs : List String) :
    ReadOnly (Manifest.loadFirst dirs : StateM σ _) := by
  induction dirs with
  | nil => exact .pure _
  | cons dir rest ih =>
    refine .bind (fs.present _) fun there => ?_
    split
    · exact .bind (fs.readOnly_load dir) fun r => .pure _
    · exact ih

theorem readOnly_configured (fs : FileSystem σ) (config : Option String) :
    ReadOnly (Command.configured config : StateM σ _) := by
  simp only [Command.configured]
  split
  · exact .bind fs.workingDirectory fun cwd => fs.readOnly_loadFirst _
  · exact .bind (fs.readOnly_load _) fun r => .pure _

end FileSystem

namespace Command

section
variable {σ : Type} {x : Step (StateM σ) α} {y : StateM σ α} {f : α → Step (StateM σ) β} {s s' : σ}

theorem run_bind_ok (h : x.run.run s = (.ok a, s')) :
    (x >>= f).run.run s = (f a).run.run s' := by
  rw [ExceptT.run_bind, StateT.run_bind, h]
  rfl

theorem run_bind_error (h : x.run.run s = (.error e, s')) :
    (x >>= f).run.run s = (.error e, s') := by
  rw [ExceptT.run_bind, StateT.run_bind, h]
  rfl

theorem run_lift_bind (h : y.run s = (a, s')) :
    ((liftM y : Step (StateM σ) α) >>= f).run.run s = (f a).run.run s' := by
  have hrun : (liftM y : Step (StateM σ) α).run.run s = (.ok (y.run s).1, (y.run s).2) := rfl
  exact run_bind_ok (by rw [hrun, h])

theorem run_lift_except (r : Except CommandError α) (s : σ) :
    (liftM r : Step (StateM σ) α).run.run s = (r, s) := rfl

theorem run_finish_ok {step : Step (StateM σ) String} (h : step.run.run s = (.ok text, s')) :
    (finish step).run s = (.ok { exit := 0, stdout := text }, s') := by
  rw [finish, StateT.run_bind, h]
  rfl

theorem run_finish_error {step : Step (StateM σ) String} (h : step.run.run s = (.error e, s')) :
    (finish step).run s = (failed e, s') := by
  rw [finish, StateT.run_bind, h]
  rfl

end

section
variable {σ : Type} [FileAccess (StateM σ)]

theorem run_findManifest (fs : FileSystem σ) (config : Option String) (s : σ) :
    (findManifest config : Step (StateM σ) _).run.run s =
      (((configured config : StateM σ _).run s).1.mapError .manifest, s) := by
  unfold findManifest
  rw [run_lift_bind ((fs.readOnly_configured config).run s)]
  cases ((configured config : StateM σ _).run s).1 <;> rfl

theorem openLog_cases (fs : FileSystem σ) (log : Option String) (s : σ) :
    (∃ e, (openLog log : Step (StateM σ) Unit).run.run s = (.error (.log e), s)) ∨
    ∃ s', (openLog log : Step (StateM σ) Unit).run.run s = (.ok (), s') ∧ fs.Opened log s s' := by
  cases log with
  | none => exact .inr ⟨s, rfl, .refl none⟩
  | some path =>
    rcases fs.extend path s with ⟨e, he⟩ | ⟨at_, s', he, hat, hplace, hsame, hread⟩
    · exact .inl ⟨e, run_lift_bind he⟩
    · refine .inr ⟨s', run_lift_bind he, hplace, fun other hother => hsame other ?_, hread⟩
      rintro rfl
      exact hother ⟨path, rfl, hat⟩

def log? (arguments : List String) (s : σ) : Option String :=
  match Flags.parse arguments with
  | .error _ => none
  | .ok flags =>
    match flags.arguments, ((configured flags.config : StateM σ _).run s).1 with
    | [input], .ok manifest => (Options.ofFlags flags input manifest).logFile?
    | _, _ => none

/-- Reading the settings of a command line fails and changes nothing, or ends with the log open. -/
theorem options_cases (fs : FileSystem σ) (command : String) (arguments : List String) (s : σ) :
    (∃ e, (options command arguments : Step (StateM σ) Options).run.run s = (.error e, s) ∧
      ∀ c, e = .flags c .help → Flags.parse arguments = .error .help) ∨
    ∃ flags input manifest s',
      (options command arguments : Step (StateM σ) Options).run.run s =
        (.ok (Options.ofFlags flags input manifest), s') ∧
      Flags.parse arguments = .ok flags ∧ flags.arguments = [input] ∧
      ((configured flags.config : StateM σ _).run s).1 = .ok manifest ∧
      fs.Opened (log? arguments s) s s' := by
  unfold options
  cases hflags : Flags.parse arguments with
  | error e =>
    refine .inl ⟨.flags command e, rfl, fun c hc => ?_⟩
    cases hc
    rfl
  | ok flags =>
    simp only
    split
    · rename_i input hinput
      have hfind := run_findManifest fs flags.config s
      cases hm : ((configured flags.config : StateM σ _).run s).1 with
      | error e =>
        rw [hm] at hfind
        exact .inl ⟨.manifest e, run_bind_error hfind, nofun⟩
      | ok manifest =>
        rw [hm] at hfind
        rw [run_bind_ok hfind]
        rcases openLog_cases fs (Options.ofFlags flags input manifest).logFile? s with
          ⟨e, he⟩ | ⟨s', hs, hopened⟩
        · exact .inl ⟨.log e, run_bind_error he, nofun⟩
        · refine .inr ⟨flags, input, manifest, s', run_bind_ok hs, rfl, hinput, hm, ?_⟩
          simpa only [log?, hflags, hinput, hm] using hopened
    · exact .inl ⟨_, rfl, nofun⟩

theorem loadUnit_cases (fs : FileSystem σ) (path : String) (s : σ) :
    (∃ e, (loadUnit path : Step (StateM σ) LinkUnit).run.run s = (.error e, s) ∧
      ∀ c, e ≠ .flags c .help) ∨
    ∃ content u, (loadUnit path : Step (StateM σ) LinkUnit).run.run s = (.ok u, s) ∧
      ((FileAccess.read path : StateM σ _).run s).1 = .ok content ∧
      (LinkUnit.decode content 0).1 = .ok u := by
  unfold loadUnit
  rw [run_lift_bind (ReadOnly.run (fs.read path) s)]
  cases hr : ((FileAccess.read path : StateM σ _).run s).1 with
  | error e => exact .inl ⟨.file e, rfl, nofun⟩
  | ok content =>
    simp only
    split
    · rename_i u hu
      exact .inr ⟨content, u, rfl, rfl, hu⟩
    · exact .inl ⟨_, rfl, nofun⟩

-- ---------------------------------------------------------------------------
-- Linking
-- ---------------------------------------------------------------------------

/-- What linking comes to know on its way from a command line to an image. -/
structure Linking where
  flags : Flags
  input : String
  manifest : Option Manifest
  output : String
  /-- The name of the member to start from, empty for the entry of the image. -/
  name : String
  content : List UInt8
  unit : LinkUnit
  entry : MemberId
  program : Program
  graph : Graph
  image : List UInt8

namespace Linking

/-- The output path: the flag's, else the manifest's, else the one that goes with the input. -/
structure OutputChosen (l : Linking) : Prop where
  flag : ∀ path, l.flags.output = some path → l.output = path
  manifest : l.flags.output = none →
    ∀ m, l.manifest = some m → m.output ≠ "" → l.output = m.resolve m.output
  default : l.flags.output = none →
    (∀ m, l.manifest = some m → m.output = "") → l.output = Manifest.defaultOutput l.input

structure NameChosen (l : Linking) : Prop where
  flag : ∀ name, l.flags.entry = some name → l.name = name
  manifest : l.flags.entry = none → ∀ m, l.manifest = some m → l.name = m.entry
  default : l.flags.entry = none → l.manifest = none → l.name = ""

/-- Each part follows from those before it and from the files. -/
structure Follows (l : Linking) (arguments : List String) (runId : RunId) (s : σ) : Prop where
  flags : Flags.parse arguments = .ok l.flags
  input : l.flags.arguments = [l.input]
  manifest : ((configured l.flags.config : StateM σ _).run s).1 = .ok l.manifest
  output : l.OutputChosen
  name : l.NameChosen
  content : ((FileAccess.read l.input : StateM σ _).run s).1 = .ok l.content
  unit : (LinkUnit.decode l.content 0).1 = .ok l.unit
  entry : if l.name = "" then l.entry = l.unit.entry else l.unit.find l.name = .ok l.entry
  program : Program.create l.unit.code l.unit.graph (some l.entry) = (.ok l.program, l.graph)
  image : Image.encodeProgram l.unit.declarations l.graph l.unit.code l.program runId = .ok l.image

variable {l : Linking}

theorem outputChosen (h : l.output = (Options.ofFlags l.flags l.input l.manifest).output) :
    l.OutputChosen where
  flag path hpath := by
    rw [h, Options.ofFlags, hpath]
    rfl
  manifest hnone m hm hne := by
    rw [h, Options.ofFlags, hnone, hm]
    exact if_neg (by simpa using hne)
  default hnone hempty := by
    rw [h, Options.ofFlags, hnone]
    cases hm : l.manifest with
    | none => rfl
    | some m => exact if_pos (by simp [hempty m hm])

theorem nameChosen (h : l.name = (Options.ofFlags l.flags l.input l.manifest).entry) :
    l.NameChosen where
  flag name hname := by
    rw [h, Options.ofFlags, hname]
    rfl
  manifest hnone m hm := by
    rw [h, Options.ofFlags, hnone, hm]
    rfl
  default hnone hm := by
    rw [h, Options.ofFlags, hnone, hm]
    rfl

end Linking

theorem linkUnit_ok {u : LinkUnit} {entry : MemberId} {runId : RunId} {p : Program}
    {bytes : List UInt8} (h : linkUnit u entry runId = .ok (p, bytes)) :
    ∃ g, Program.create u.code u.graph (some entry) = (.ok p, g) ∧
      Image.encodeProgram u.declarations g u.code p runId = .ok bytes := by
  unfold linkUnit at h
  split at h
  · cases h
  · cases h
  · rename_i q g hcreate
    split at h
    · rename_i image himage
      cases h
      exact ⟨g, hcreate, himage⟩
    · cases h
    · cases h

theorem linkUnit_error {u : LinkUnit} {entry : MemberId} {runId : RunId} {e : CommandError}
    (h : linkUnit u entry runId = .error e) (c : String) : e ≠ .flags c .help := by
  rintro rfl
  unfold linkUnit at h
  split at h
  · cases h
  · cases h
  · split at h <;> cases h

theorem entryOf_ok {u : LinkUnit} {name : String} {entry : MemberId}
    (h : entryOf u name = .ok entry) :
    if name = "" then entry = u.entry else u.find name = .ok entry := by
  unfold entryOf at h
  by_cases hname : name = ""
  · rw [if_pos hname]
    rw [if_pos (by simp [hname])] at h
    cases h
    rfl
  · rw [if_neg hname]
    rw [if_neg (by simpa using hname)] at h
    split at h
    · cases h
      assumption
    · cases h

theorem entryOf_error {u : LinkUnit} {name : String} {e : CommandError}
    (h : entryOf u name = .error e) (c : String) : e ≠ .flags c .help := by
  rintro rfl
  unfold entryOf at h
  split_ifs at h
  split at h <;> cases h

theorem decode_nil (u : LinkUnit) : (LinkUnit.decode [] 0).1 ≠ .ok u := by
  have h : (LinkUnit.decode [] 0).1 = .error .bytes := by rfl
  simp [h]

/-- Linking fails before it writes, or writes the image it has come to as its last step. -/
theorem link_cases (fs : FileSystem σ) (arguments : List String) (runId : RunId) (s : σ) :
    ∃ s₁, fs.Opened (log? arguments s) s s₁ ∧
      ((∃ e, (link arguments runId : Step (StateM σ) String).run.run s = (.error e, s₁) ∧
          ∀ c, e = .flags c .help → Flags.parse arguments = .error .help ∧ s₁ = s) ∨
        ∃ l : Linking, l.Follows arguments runId s ∧
          ∃ s₂, (FileAccess.write l.output l.image : StateM σ _).run s₁ = (.ok (), s₂) ∧
            (link arguments runId : Step (StateM σ) String).run.run s =
              (.ok (summary l.unit l.program l.output), s₂)) := by
  unfold link
  rcases options_cases fs "link" arguments s with
    ⟨e, he, hhelp⟩ | ⟨flags, input, manifest, s₁, hs, hflags, hinput, hmanifest, hopened⟩
  · exact ⟨s, .refl _, .inl ⟨e, run_bind_error he, fun c hc => ⟨hhelp c hc, rfl⟩⟩⟩
  refine ⟨s₁, hopened, ?_⟩
  rw [run_bind_ok hs]
  -- from here on no error is one of flags
  have hfail : ∀ {x : Step (StateM σ) String} {e : CommandError}, x.run.run s₁ = (.error e, s₁) →
      (∀ c, e ≠ .flags c .help) → ∃ e, x.run.run s₁ = (.error e, s₁) ∧
        ∀ c, e = .flags c .help → Flags.parse arguments = .error .help ∧ s₁ = s :=
    fun {x e} hx he => ⟨e, hx, fun c hc => absurd hc (he c)⟩
  rcases loadUnit_cases fs (Options.ofFlags flags input manifest).input s₁ with
    ⟨e, he, hne⟩ | ⟨content, u, hu, hread, hdecode⟩
  · exact .inl (hfail (run_bind_error he) hne)
  rw [run_bind_ok hu]
  cases hentry : entryOf u (Options.ofFlags flags input manifest).entry with
  | error e => exact .inl (hfail (run_bind_error (run_lift_except _ _)) (entryOf_error hentry))
  | ok entry =>
    rw [run_bind_ok (run_lift_except _ _)]
    cases hlinked : linkUnit u entry runId with
    | error e => exact .inl (hfail (run_bind_error (run_lift_except _ _)) (linkUnit_error hlinked))
    | ok linked =>
      obtain ⟨p, bytes⟩ := linked
      obtain ⟨g, hcreate, himage⟩ := linkUnit_ok hlinked
      rw [run_bind_ok (run_lift_except _ _)]
      rcases fs.write (Options.ofFlags flags input manifest).output bytes s₁ with
        ⟨e, he⟩ | ⟨at_, s₂, hwrite, -⟩
      · refine .inl (hfail (run_lift_bind he) fun c hc => ?_)
        cases hc
      -- an empty file, as a new log is, is no image
      have hcontent := (hopened.read _ _ hread).resolve_left fun h => decode_nil u (h ▸ hdecode)
      let l : Linking := ⟨flags, input, manifest, (Options.ofFlags flags input manifest).output,
        (Options.ofFlags flags input manifest).entry, content, u, entry, p, g, bytes⟩
      refine .inr ⟨l, ?_, s₂, hwrite, run_lift_bind hwrite⟩
      exact ⟨hflags, hinput, hmanifest, Linking.outputChosen rfl, Linking.nameChosen rfl, hcontent,
        hdecode, entryOf_ok hentry, hcreate, himage⟩

theorem dump_cases (fs : FileSystem σ) (arguments : List String) (s : σ) :
    ∃ r s', (dump arguments : Step (StateM σ) String).run.run s = (r, s') ∧
      fs.Opened (log? arguments s) s s' := by
  unfold dump
  rcases options_cases fs "dump" arguments s with
    ⟨e, he, -⟩ | ⟨flags, input, manifest, s₁, hs, -, -, -, hopened⟩
  · exact ⟨.error e, s, run_bind_error he, .refl _⟩
  rw [run_bind_ok hs]
  rcases loadUnit_cases fs (Options.ofFlags flags input manifest).input s₁ with
    ⟨e, he, -⟩ | ⟨content, u, hu, -, -⟩
  · exact ⟨.error e, s₁, run_bind_error he, hopened⟩
  rw [run_bind_ok hu]
  cases dumpUnit u with
  | error f => exact ⟨.error (.fault f), s₁, rfl, hopened⟩
  | ok text => exact ⟨.ok text, s₁, rfl, hopened⟩

-- ---------------------------------------------------------------------------
-- Command lines
-- ---------------------------------------------------------------------------

theorem help_of_failed (h : failed e = .ok o) (hexit : o.exit = 0) : ∃ c, e = .flags c .help := by
  cases e with
  | flags c e =>
    cases e with
    | help => exact ⟨c, rfl⟩
    | _ => cases h; cases hexit
  | _ => cases h <;> cases hexit

theorem run_opens (fs : FileSystem σ) (rest : List String) (runId : RunId) (s : σ)
    (hcommand : command ≠ "link") :
    fs.Opened (log? rest s) s
      ((run (command :: rest) runId : StateM σ (Except Fault Outcome)).run s).2 := by
  unfold run
  split
  · contradiction
  · rename_i heq
    cases heq
    contradiction
  · rename_i heq
    cases heq
    obtain ⟨r, s', hrun, hopened⟩ := dump_cases fs rest s
    cases r with
    | error e => rwa [run_finish_error hrun]
    | ok text => rwa [run_finish_ok hrun]
  · split_ifs
    · exact .refl _
    · exact .refl _

/-- A command line changes no file but the log, unless it links: then the output is written, which
holds the image of what is linked, and no other file but the log is changed. Output and log may be
one file. -/
theorem run_changes (fs : FileSystem σ) (arguments : List String) (runId : RunId) (s : σ) :
    let result := (run arguments runId : StateM σ (Except Fault Outcome)).run s
    let IsLog := fs.IsLog s (log? arguments.tail s)
    fs.place result.2 = fs.place s ∧
    ((arguments.head? = some "link" → ∀ o, result.1 = .ok o → o.exit ≠ 0) →
      fs.SameBut IsLog s result.2) ∧
    ∀ rest, arguments = "link" :: rest → ∀ o, result.1 = .ok o → o.exit = 0 →
      Flags.parse rest = .error .help ∧ result.2 = s ∨
      ∃ l : Linking, l.Follows rest runId s ∧ ∃ at_, fs.place s l.output = some at_ ∧
        fs.file result.2 at_ = some l.image ∧
        fs.SameBut (fun other => other = at_ ∨ IsLog other) s result.2 := by
  intro result IsLog
  cases arguments with
  | nil => exact ⟨rfl, fun _ => .refl _, nofun⟩
  | cons command rest =>
    by_cases hcommand : command = "link"
    · subst hcommand
      obtain ⟨s₁, hopened, ⟨e, hrun, hhelp⟩ | ⟨l, hl, s₂, hwrite, hrun⟩⟩ :=
        link_cases fs rest runId s
      · have hresult : result = (failed e, s₁) := run_finish_error hrun
        rw [hresult]
        refine ⟨hopened.place, fun _ => hopened.same, fun _ heq o ho hexit => .inl ?_⟩
        cases heq
        obtain ⟨c, hc⟩ := help_of_failed ho hexit
        exact hhelp c hc
      · have hresult : result = _ := run_finish_ok hrun
        rw [hresult]
        obtain ⟨e, he⟩ | ⟨at_, s', hwritten, hat, hplace, hfile, hsame⟩ :=
          fs.write l.output l.image s₁
        · cases hwrite.symm.trans he
        cases hwrite.symm.trans hwritten
        refine ⟨hplace.trans hopened.place, fun h => absurd rfl (h rfl _ rfl), ?_⟩
        rintro _ ⟨⟩ o ho hexit
        refine .inr ⟨l, hl, at_, hopened.place ▸ hat, hfile, fun other hother => ?_⟩
        rw [not_or] at hother
        exact (hsame other hother.1).trans (hopened.same other hother.2)
    · have hopened := run_opens fs rest runId s hcommand
      refine ⟨hopened.place, fun _ => hopened.same, ?_⟩
      rintro _ ⟨⟩
      contradiction

end

-- ---------------------------------------------------------------------------
-- A log beside the output
-- ---------------------------------------------------------------------------

def idle : Image where
  version := 1
  classes := some [{ name := "A" }]
  members := some [{ kind := Image.methodKind, name := "m", type := "void" }]
  blocks := some [{ code := some [{ op := Image.Op.nop }], succs := some [] }]
  bodies := some [{}]

def logging : Disk where
  nodes := [(["p.cbor"], .file idle.marshal),
    (["tabby.toml"], .file (Utf8.bytesOf "[log]\nfile='x.log'\nverbosity=-1"))]

theorem logging_exit :
    ((run ["link", "p.cbor"] .zero : StateM Disk (Except Fault Outcome)).run logging).1.toOption.map
      Outcome.exit = some 0 := by
  decide +kernel

theorem run_changes_logging :
    let result := (run ["link", "p.cbor"] .zero : StateM Disk (Except Fault Outcome)).run logging
    ∃ l : Linking, l.Follows ["p.cbor"] .zero logging ∧
      ∃ at_, Disk.fileSystem.place logging l.output = some at_ ∧
        Disk.fileSystem.file result.2 at_ = some l.image ∧
        Disk.fileSystem.SameBut (fun other => other = at_ ∨
          Disk.fileSystem.IsLog logging (log? ["p.cbor"] logging) other) logging result.2 := by
  intro result
  obtain ⟨o, ho, hexit⟩ := Option.map_eq_some_iff.mp logging_exit
  have hok : result.1 = .ok o := by
    cases h : result.1 with
    | error f => rw [h] at ho; cases ho
    | ok o' => rw [h] at ho; cases ho; rfl
  have hparse : Flags.parse ["p.cbor"] ≠ .error .help := by decide
  have hchanges := run_changes Disk.fileSystem ["link", "p.cbor"] .zero logging
  exact (hchanges.2.2 _ rfl o hok hexit).resolve_left fun h => hparse h.1

/-- Linking may change two files: its output and the log. -/
theorem run_link_logs :
    let result := (run ["link", "p.cbor"] .zero : StateM Disk (Except Fault Outcome)).run logging
    result.1.toOption.map Outcome.exit = some 0 ∧
      result.2.content? ["p.linked.cbor"] ≠ logging.content? ["p.linked.cbor"] ∧
      result.2.content? ["x.log"] ≠ logging.content? ["x.log"] :=
  ⟨logging_exit, by decide +kernel⟩

end Command

end Linkage
