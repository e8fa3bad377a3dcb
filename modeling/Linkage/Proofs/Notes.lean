import Linkage.Proofs.Reach
import Mathlib.Data.List.Nodup

/-!
# Notes

What recording instructions does to a walk. It comes down to a list of notes, which the
instructions and the registry determine and the walk only takes down. The notes are then compared
with what the instructions need, and a failure with what is wrong with the block.
-/

namespace Linkage

-- ---------------------------------------------------------------------------
-- Notes
-- ---------------------------------------------------------------------------

/-- A member that code refers to and, if it is called, what it is registered with. -/
structure Note where
  member : MemberId
  body : Option (Option BlockRef) := none

namespace Note

def frame? (n : Note) : Option Frame := n.body.map fun root => ⟨root, n.member⟩

def ofTargets (code : Registry) (f : Frame) : List (Option MemberId) → List Note × Option Failure
  | [] => ([], none)
  | target :: rest =>
    match target, target.bind code.body? with
    | some m, some root =>
      let (notes, failure) := ofTargets code f rest
      (⟨m, some (some root)⟩ :: notes, failure)
    | target, _ => ([], some (.defect ⟨.missingCode f.member, target, f.block⟩))

def ofCallee (code : Registry) (callee : Option MemberId) : List Note :=
  match callee, callee.bind code.find with
  | some m, some root => [⟨m, some root⟩]
  | _, _ => []

def ofCall (code : Registry) (f : Frame) (c : Call) : List Note × Option Failure :=
  match c.targets with
  | none => ([], some (.defect ⟨.unresolvedCall, some f.member, f.block⟩))
  | some [] => (ofCallee code c.callee, none)
  | some targets => ofTargets code f targets

def ofInstruction (code : Registry) (calls : Array Call) (f : Frame) :
    Instruction → List Note × Option Failure
  | .getField m | .putField m => ([{ member := m }], none)
  | .call site =>
    match calls[site]? with
    | some c => ofCall code f c
    | none => ([], some (.fault .absent))
  | _ => ([], none)

def ofCode (code : Registry) (calls : Array Call) (f : Frame) :
    List Instruction → List Note × Option Failure
  | [] => ([], none)
  | i :: rest =>
    match ofInstruction code calls f i with
    | (notes, some failure) => (notes, some failure)
    | (notes, none) => (notes ++ (ofCode code calls f rest).1, (ofCode code calls f rest).2)

end Note

namespace Sweep

def note (s : Sweep) (n : Note) : Sweep :=
  match n.body with
  | none => s.reach n.member
  | some root => s.enter n.member root

def noteAll (s : Sweep) (notes : List Note) : Sweep := notes.foldl note s

section
variable {code : Registry} {f : Frame} {s : Sweep}

theorem reach_eq (s : Sweep) (m : MemberId) :
    ∃ reachable, s.reach m = { s with reachable } ∧
      (reachable = s.reachable ∨ m ∉ s.reachable ∧ reachable = s.reachable ++ [m]) ∧
      ∀ n, n ∈ reachable ↔ n ∈ s.reachable ∨ n = m := by
  by_cases h : m ∈ s.reachable
  · refine ⟨s.reachable, by simp [reach, h], .inl rfl, fun n => ⟨.inl, ?_⟩⟩
    rintro (hn | rfl)
    · exact hn
    · exact h
  · exact ⟨s.reachable ++ [m], by simp [reach, h], .inr ⟨h, rfl⟩, by simp⟩

/-- A note adds its member to those in reach, if it is not there yet, and its frame to the stack. -/
theorem note_eq (s : Sweep) (n : Note) :
    s.note n = { s.reach n.member with stack := n.frame?.toList ++ s.stack } := by
  obtain ⟨m, body⟩ := n
  obtain ⟨reachable, hreach, -⟩ := reach_eq s m
  cases body with
  | none => simp [note, Note.frame?, hreach]
  | some root => simp [note, enter, push, Note.frame?, hreach]

theorem noteAll_eq (s : Sweep) (notes : List Note) :
    ∃ reachable, s.noteAll notes =
        { s with reachable, stack := (notes.filterMap Note.frame?).reverse ++ s.stack } ∧
      (s.reachable.Nodup → reachable.Nodup) ∧ s.reachable <+: reachable ∧
      ∀ m, m ∈ reachable ↔ m ∈ s.reachable ∨ ∃ n ∈ notes, n.member = m := by
  induction notes generalizing s with
  | nil => exact ⟨s.reachable, rfl, id, List.prefix_refl _, by simp⟩
  | cons n rest ih =>
    obtain ⟨first, hfirst, hgrow, hmem⟩ := reach_eq s n.member
    obtain ⟨reachable, heq, hnodup, hpre, hiff⟩ := ih (s.note n)
    have hnote : s.note n = { s with reachable := first, stack := n.frame?.toList ++ s.stack } := by
      rw [note_eq, hfirst]
    rw [hnote] at heq hnodup hpre hiff
    refine ⟨reachable, ?_, ?_, ?_, ?_⟩
    · show (s.note n).noteAll rest = _
      rw [hnote, heq]
      cases hf : n.frame? <;> simp [hf]
    · intro hs
      apply hnodup
      rcases hgrow with rfl | ⟨hnew, rfl⟩
      · exact hs
      · simpa using hs.concat hnew
    · rcases hgrow with rfl | ⟨-, rfl⟩
      · exact hpre
      · exact (List.prefix_append _ _).trans hpre
    · intro m
      rw [hiff m, hmem m]
      simp only [List.mem_cons, exists_eq_or_imp]
      constructor
      · rintro ((h | rfl) | h)
        · exact .inl h
        · exact .inr (.inl rfl)
        · exact .inr (.inr h)
      · rintro (h | rfl | h)
        · exact .inl (.inl h)
        · exact .inl (.inr rfl)
        · exact .inr h

@[simp] theorem noteAll_graph (s : Sweep) (notes : List Note) :
    (s.noteAll notes).graph = s.graph := by
  obtain ⟨_, h, -⟩ := noteAll_eq s notes
  rw [h]

theorem noteAll_append (s : Sweep) (xs ys : List Note) :
    s.noteAll (xs ++ ys) = (s.noteAll xs).noteAll ys := List.foldl_append

theorem enterTargets_eq (targets : List (Option MemberId)) :
    s.enterTargets code f targets =
      (s.noteAll (Note.ofTargets code f targets).1, (Note.ofTargets code f targets).2) := by
  induction targets generalizing s with
  | nil => rfl
  | cons target rest ih =>
    cases target with
    | none => rfl
    | some m =>
      cases h : code.body? m with
      | none => simp [enterTargets, Note.ofTargets, noteAll, h]
      | some root =>
        simp only [enterTargets, Note.ofTargets, Option.bind_some, h, ih]
        rfl

theorem enterCallee_eq (callee : Option MemberId) :
    s.enterCallee code callee = s.noteAll (Note.ofCallee code callee) := by
  cases callee with
  | none => rfl
  | some m =>
    cases h : code.find m with
    | none => simp [enterCallee, Note.ofCallee, noteAll, h]
    | some root => simp [enterCallee, Note.ofCallee, noteAll, note, h]

theorem recordCall_eq (c : Call) :
    s.recordCall code f c = (s.noteAll (Note.ofCall code f c).1, (Note.ofCall code f c).2) := by
  unfold recordCall Note.ofCall
  cases c.targets with
  | none => rfl
  | some targets =>
    cases targets with
    | nil => simp only [enterCallee_eq]
    | cons target rest => exact enterTargets_eq _

theorem record_eq (i : Instruction) :
    s.record code f i = (s.noteAll (Note.ofInstruction code s.graph.calls f i).1,
      (Note.ofInstruction code s.graph.calls f i).2) := by
  cases i with
  | call site =>
    simp only [record, Note.ofInstruction]
    cases s.graph.calls[site]? with
    | none => rfl
    | some c => exact recordCall_eq c
  | _ => rfl

theorem recordAll_eq (is : List Instruction) :
    s.recordAll code f is = (s.noteAll (Note.ofCode code s.graph.calls f is).1,
      (Note.ofCode code s.graph.calls f is).2) := by
  induction is generalizing s with
  | nil => rfl
  | cons i rest ih =>
    simp only [recordAll, Note.ofCode, record_eq]
    cases h : Note.ofInstruction code s.graph.calls f i with
    | mk notes failure =>
      cases failure with
      | some failure => rfl
      | none => simp only [ih, noteAll_graph, noteAll_append]

end

end Sweep

-- ---------------------------------------------------------------------------
-- What notes say
-- ---------------------------------------------------------------------------

namespace Note

/-- The note belongs to the instruction: it names its field, or a member that its call may run. -/
def Of (code : Registry) (calls : Array Call) (i : Instruction) (n : Note) : Prop :=
  match n.body with
  | none => i = .getField n.member ∨ i = .putField n.member
  | some root => ∃ site c, i = .call site ∧ calls[site]? = some c ∧ c.Runs code n.member ∧
      code.find n.member = some root

section
variable {code : Registry} {calls : Array Call} {f : Frame} {i : Instruction} {n : Note}

theorem Of.refers (h : n.Of code calls i) : i.Refers code calls n.member := by
  obtain ⟨m, body⟩ := n
  cases body with
  | none =>
    rcases h with rfl | rfl
    · exact .get
    · exact .put
  | some root =>
    obtain ⟨site, c, rfl, hc, hrun, -⟩ := h
    exact .call hc hrun

theorem mem_ofTargets (h : n ∈ (ofTargets code f ts).1) :
    ∃ m root, some m ∈ ts ∧ code.body? m = some root ∧ n = ⟨m, some (some root)⟩ := by
  induction ts with
  | nil => simp [ofTargets] at h
  | cons target rest ih =>
    cases target with
    | none => simp [ofTargets] at h
    | some m =>
      cases hm : code.body? m with
      | none => simp [ofTargets, hm] at h
      | some root =>
        simp only [ofTargets, Option.bind_some, hm, List.mem_cons] at h
        rcases h with rfl | h
        · exact ⟨m, root, by simp, hm, rfl⟩
        · obtain ⟨m', root', hmem, hbody, rfl⟩ := ih h
          exact ⟨m', root', List.mem_cons_of_mem _ hmem, hbody, rfl⟩

theorem ofTargets_none (h : (ofTargets code f ts).2 = none) (ht : t ∈ ts) :
    ∃ m root, t = some m ∧ code.body? m = some root ∧
      ⟨m, some (some root)⟩ ∈ (ofTargets code f ts).1 := by
  induction ts with
  | nil => simp at ht
  | cons target rest ih =>
    cases target with
    | none => simp [ofTargets] at h
    | some m =>
      cases hm : code.body? m with
      | none => simp [ofTargets, hm] at h
      | some root =>
        simp only [ofTargets, Option.bind_some, hm] at h ⊢
        rcases List.mem_cons.mp ht with rfl | ht
        · exact ⟨m, root, rfl, hm, List.mem_cons_self⟩
        · obtain ⟨m', root', rfl, hbody, hmem⟩ := ih h ht
          exact ⟨m', root', rfl, hbody, List.mem_cons_of_mem _ hmem⟩

theorem ofTargets_some (h : (ofTargets code f ts).2 = some e) :
    ∃ t ∈ ts, t.bind code.body? = none ∧ e = .defect ⟨.missingCode f.member, t, f.block⟩ := by
  induction ts with
  | nil => simp [ofTargets] at h
  | cons target rest ih =>
    cases target with
    | none => exact ⟨none, List.mem_cons_self, rfl, by simpa [ofTargets] using h.symm⟩
    | some m =>
      cases hm : code.body? m with
      | none => exact ⟨some m, List.mem_cons_self, hm, by simpa [ofTargets, hm] using h.symm⟩
      | some root =>
        simp only [ofTargets, Option.bind_some, hm] at h
        obtain ⟨t, ht, hnone, he⟩ := ih h
        exact ⟨t, List.mem_cons_of_mem _ ht, hnone, he⟩

theorem mem_ofCallee {callee : Option MemberId} :
    n ∈ ofCallee code callee ↔
      ∃ m root, callee = some m ∧ code.find m = some root ∧ n = ⟨m, some root⟩ := by
  cases callee with
  | none => simp [ofCallee]
  | some m => cases hm : code.find m <;> simp [ofCallee, hm]

theorem ofCall_of_mem {c : Call} (hts : c.targets = some ts) (ht : t ∈ ts) :
    ofCall code f c = ofTargets code f ts := by
  cases ts with
  | nil => simp at ht
  | cons _ _ => simp [ofCall, hts]

theorem of_mem_ofInstruction (h : n ∈ (ofInstruction code calls f i).1) : n.Of code calls i := by
  cases i with
  | getField m =>
    obtain rfl := List.mem_singleton.mp h
    exact .inl rfl
  | putField m =>
    obtain rfl := List.mem_singleton.mp h
    exact .inr rfl
  | call site =>
    cases hc : calls[site]? with
    | none => simp [ofInstruction, hc] at h
    | some c =>
      simp only [ofInstruction, hc, ofCall] at h
      split at h
      · simp at h
      · rename_i hts
        obtain ⟨m, root, hcallee, hm, rfl⟩ := mem_ofCallee.mp h
        exact ⟨site, c, rfl, hc, .callee hts hcallee (by simp [hm]), hm⟩
      · rename_i ts _ hts
        obtain ⟨m, root, hmem, hm, rfl⟩ := mem_ofTargets h
        exact ⟨site, c, rfl, hc, .target hts hmem, Registry.body?_eq_some.mp hm⟩
  | _ => simp [ofInstruction] at h

theorem mem_ofInstruction_of_runs (h : (ofInstruction code calls f (.call site)).2 = none)
    (hc : calls[site]? = some c) (hrun : Call.Runs code c m) :
    ∃ root, code.find m = some root ∧
      ⟨m, some root⟩ ∈ (ofInstruction code calls f (.call site)).1 := by
  simp only [ofInstruction, hc] at h ⊢
  cases hrun with
  | target hts hmem =>
    rw [ofCall_of_mem hts hmem] at h ⊢
    obtain ⟨m', root, heq, hbody, hnote⟩ := ofTargets_none h hmem
    cases heq
    exact ⟨some root, Registry.body?_eq_some.mp hbody, hnote⟩
  | callee hts hcallee hreg =>
    obtain ⟨root, hroot⟩ := Option.isSome_iff_exists.mp hreg
    refine ⟨root, hroot, ?_⟩
    simp only [ofCall, hts]
    exact mem_ofCallee.mpr ⟨m, root, hcallee, hroot, rfl⟩

theorem exists_note_of_refers (h : (ofInstruction code calls f i).2 = none)
    (hm : i.Refers code calls m) : ∃ n ∈ (ofInstruction code calls f i).1, n.member = m := by
  cases hm with
  | get => exact ⟨_, List.mem_singleton.mpr rfl, rfl⟩
  | put => exact ⟨_, List.mem_singleton.mpr rfl, rfl⟩
  | call hc hrun =>
    obtain ⟨root, -, hnote⟩ := mem_ofInstruction_of_runs h hc hrun
    exact ⟨_, hnote, rfl⟩

theorem of_mem_ofCode (h : n ∈ (ofCode code calls f is).1) : ∃ i ∈ is, n.Of code calls i := by
  induction is with
  | nil => simp [ofCode] at h
  | cons i rest ih =>
    simp only [ofCode] at h
    split at h
    · rename_i notes failure heq
      exact ⟨i, List.mem_cons_self, of_mem_ofInstruction (f := f) (by rw [heq]; exact h)⟩
    · rename_i notes heq
      rcases List.mem_append.mp h with h | h
      · exact ⟨i, List.mem_cons_self, of_mem_ofInstruction (f := f) (by rw [heq]; exact h)⟩
      · obtain ⟨j, hj, hof⟩ := ih h
        exact ⟨j, List.mem_cons_of_mem _ hj, hof⟩

theorem ofCode_none (h : (ofCode code calls f is).2 = none) (hi : i ∈ is) :
    (ofInstruction code calls f i).2 = none ∧
      ∀ n ∈ (ofInstruction code calls f i).1, n ∈ (ofCode code calls f is).1 := by
  induction is with
  | nil => simp at hi
  | cons j rest ih =>
    simp only [ofCode] at h ⊢
    split at h
    · simp at h
    · rename_i notes heq
      rcases List.mem_cons.mp hi with rfl | hi
      · rw [heq]
        exact ⟨rfl, fun n hn => List.mem_append_left _ hn⟩
      · obtain ⟨hnone, hmem⟩ := ih h hi
        exact ⟨hnone, fun n hn => List.mem_append_right _ (hmem n hn)⟩

theorem ofCode_some (h : (ofCode code calls f is).2 = some e) :
    ∃ i ∈ is, (ofInstruction code calls f i).2 = some e := by
  induction is with
  | nil => simp [ofCode] at h
  | cons i rest ih =>
    simp only [ofCode] at h
    split at h
    · rename_i notes failure heq
      exact ⟨i, List.mem_cons_self, by rw [heq]; exact h⟩
    · obtain ⟨j, hj, he⟩ := ih h
      exact ⟨j, List.mem_cons_of_mem _ hj, he⟩

end

-- ---------------------------------------------------------------------------
-- What fails, and what does not
-- ---------------------------------------------------------------------------

section
variable {code : Registry} {calls : Array Call} {f : Frame} {b : Block}

/-- What recording a block reports is wrong with the block, unless a call site is not there. -/
theorem flaw_of_ofCode_some (h : (ofCode code calls f b.code).2 = some e) :
    (e = .fault .absent ∧ ∃ site, .call site ∈ b.code ∧ calls[site]? = none) ∨
      ∃ kind m, e = .defect ⟨kind, m, f.block⟩ ∧ b.Flaw code calls kind m ∧
        (kind = .unresolvedCall ∧ m = some f.member ∨ kind = .missingCode f.member) := by
  obtain ⟨i, hi, he⟩ := ofCode_some h
  cases i with
  | call site =>
    cases hc : calls[site]? with
    | none =>
      simp only [ofInstruction, hc, Option.some.injEq] at he
      exact .inl ⟨he.symm, site, hi, hc⟩
    | some c =>
      simp only [ofInstruction, hc, ofCall] at he
      split at he
      · rename_i hts
        simp only [Option.some.injEq] at he
        exact .inr ⟨_, _, he.symm, .unresolved hi hc hts, .inl ⟨rfl, rfl⟩⟩
      · simp at he
      · rename_i ts _ hts
        obtain ⟨t, ht, hnone, rfl⟩ := ofTargets_some he
        exact .inr ⟨_, _, rfl, .missing hi hc hts ht hnone, .inr rfl⟩
  | _ => simp [ofInstruction] at he

theorem no_flaw_of_ofCode_none (h : (ofCode code calls f b.code).2 = none) (hcode : b.code ≠ [])
    (hsuccs : none ∉ b.succs) : ¬ b.Flaw code calls kind m := by
  intro hf
  cases hf with
  | empty hnil => exact hcode hnil
  | nilSuccessor hmem => exact hsuccs hmem
  | unresolved hi hc hts =>
    have := (ofCode_none h hi).1
    simp [ofInstruction, hc, ofCall, hts] at this
  | @missing site c ts target caller hi hc hts ht hnone =>
    have hcall := (ofCode_none h hi).1
    simp only [ofInstruction, hc, ofCall_of_mem hts ht] at hcall
    obtain ⟨m, root, rfl, hbody, -⟩ := ofTargets_none hcall ht
    simp [hbody] at hnone

end

end Note

end Linkage
