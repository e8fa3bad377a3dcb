import Linkage.Proofs.Assignability
import Linkage.Proofs.Restored
import Linkage.Proofs.Writing

/-!
# Texts of types

A type is written as text while the classes it mentions are given their positions, and read back
when the classes of the table are known. The texts that are read are exactly those of a small
grammar. What was written once keeps its meaning: whatever the encoder goes on to write, the text of
a type reads as that type, over the classes of the table as it then is.
-/

namespace Linkage

open Relation

-- ---------------------------------------------------------------------------
-- Decimal numbers
-- ---------------------------------------------------------------------------

namespace Numeral

/-- Decimal digits, at least one. Leading zeros are digits like others. -/
def Digits (ds : List Char) : Prop := ds ≠ [] ∧ ∀ c ∈ ds, '0' ≤ c ∧ c ≤ '9'

/-- The text of a whole number: a sign or none, then digits. -/
inductive Spells : List Char → Int → Prop
  | plain {ds} : Digits ds → Spells ds (Nat.ofDigitChars 10 ds 0)
  | plus {ds} : Digits ds → Spells ('+' :: ds) (Nat.ofDigitChars 10 ds 0)
  | minus {ds} : Digits ds → Spells ('-' :: ds) (-Nat.ofDigitChars 10 ds 0)

section
variable {text ds : List Char} {m : Int}

theorem digits?_eq_some : digits? ds = some n ↔ Digits ds ∧ n = Nat.ofDigitChars 10 ds 0 := by
  have hall : ds.all isDigit = true ↔ ∀ c ∈ ds, '0' ≤ c ∧ c ≤ '9' := by simp [isDigit]
  have hvalue : ds.foldl (fun n c => n * 10 + (c.toNat - '0'.toNat)) 0 =
      Nat.ofDigitChars 10 ds 0 := by
    simp only [Nat.ofDigitChars_eq_foldl, Nat.mul_comm 10]
  rw [digits?, hvalue, Digits, ← hall]
  by_cases hnil : ds = []
  · simp [hnil]
  · have hempty : ds.isEmpty = false := List.isEmpty_eq_false_iff.mpr hnil
    by_cases hds : ds.all isDigit = true
    · simp only [hempty, hds, hnil, Bool.not_true, Bool.or_self, Bool.false_eq_true, ↓reduceIte,
        Option.some.injEq, ne_eq, not_false_eq_true, true_and]
      exact eq_comm
    · simp [hds]

theorem Digits.not_sign (h : Digits ds) (rest : List Char) :
    ds ≠ '-' :: rest ∧ ds ≠ '+' :: rest := by
  constructor <;> rintro rfl <;> exact absurd (h.2 _ List.mem_cons_self) (by decide)

theorem signed_eq_some :
    signed (fun cs => (digits? cs).map Int.ofNat) (·.map Neg.neg) text = some m ↔
      Spells text m := by
  unfold signed
  split
  · rename_i ds
    simp only [Option.map_map, Option.map_eq_some_iff, digits?_eq_some]
    constructor
    · rintro ⟨n, ⟨hds, rfl⟩, rfl⟩
      exact .minus hds
    · generalize htext : '-' :: ds = text
      rintro (hds | hds | hds)
      · exact absurd htext.symm (hds.not_sign ds).1
      · simp at htext
      · obtain rfl := (List.cons.inj htext).2
        exact ⟨_, ⟨hds, rfl⟩, rfl⟩
  · rename_i ds
    simp only [Option.map_eq_some_iff, digits?_eq_some]
    constructor
    · rintro ⟨n, ⟨hds, rfl⟩, rfl⟩
      exact .plus hds
    · generalize htext : '+' :: ds = text
      rintro (hds | hds | hds)
      · exact absurd htext.symm (hds.not_sign ds).2
      · obtain rfl := (List.cons.inj htext).2
        exact ⟨_, ⟨hds, rfl⟩, rfl⟩
      · simp at htext
  · rename_i hminus hplus
    simp only [Option.map_eq_some_iff, digits?_eq_some]
    constructor
    · rintro ⟨n, ⟨hds, rfl⟩, rfl⟩
      exact .plain hds
    · rintro (hds | hds | hds)
      · exact ⟨_, ⟨hds, rfl⟩, rfl⟩
      · exact absurd rfl (hplus _)
      · exact absurd rfl (hminus _)

theorem decimal?_eq_some :
    decimal? text = some m ↔ Spells text m ∧ -2 ^ 63 ≤ m ∧ m < 2 ^ 63 := by
  rw [← signed_eq_some]
  simp only [decimal?, Option.filter_eq_some_iff, Bool.and_eq_true, decide_eq_true_eq, Int.pow_eq]

end

end Numeral

namespace Image

-- ---------------------------------------------------------------------------
-- The language of types
-- ---------------------------------------------------------------------------

def primitives : List (String × Primitive) :=
  [("void", .void), ("int", .int), ("float", .float), ("boolean", .boolean), ("String", .string),
    ("nil", .nil)]

/-- The text of a type that is not an array: a primitive by its name, or one of `count` classes by
`@` and its number. -/
inductive Plain (count : Nat) : List Char → Ty → Prop
  | primitive {name p} : (name, p) ∈ primitives → Plain count name.toList (.primitive p)
  | object {text m} : Numeral.Spells text m → -2 ^ 63 ≤ m ∧ m < 2 ^ 63 → 0 ≤ m ∧ m < count →
      Plain count ('@' :: text) (.object m.toNat)

/-- The text of a type: nothing for no type, else as many brackets as the type has dimensions before
the text of what is at the bottom. -/
def Reads (count : Nat) (s : String) (t : Ty) : Prop :=
  (s = "" ∧ t = .absent) ∨ ∃ k body u, s.toList = List.replicate k '[' ++ body ∧
    Plain count body u ∧ t = Ty.array^[k] u

def complaint : List Char → Malformed
  | [] => .noElement "["
  | '@' :: text => .classReference (String.ofList ('@' :: text))
  | body => .unknownType (String.ofList body)

section
variable {count : Nat} {s : String} {t : Ty} {text body : List Char}

theorem mem_primitives : (name, p) ∈ primitives ↔ p ∈ Primitive.named ∧ p.name = name := by
  constructor
  · simp only [primitives, List.mem_cons, Prod.mk.injEq, List.not_mem_nil, or_false]
    rintro (⟨rfl, rfl⟩ | ⟨rfl, rfl⟩ | ⟨rfl, rfl⟩ | ⟨rfl, rfl⟩ | ⟨rfl, rfl⟩ | ⟨rfl, rfl⟩) <;> decide
  · rintro ⟨hp, rfl⟩
    revert p
    decide

theorem Plain.denotes (h : Plain count body t) : Denotes count body t := by
  cases h with
  | primitive hp =>
    obtain ⟨hnamed, rfl⟩ := mem_primitives.mp hp
    exact .primitive hnamed
  | object hm hrange hcount =>
    exact .object (Numeral.decimal?_eq_some.mpr ⟨hm, hrange⟩) hcount.1 hcount.2

theorem denotes_iff : Denotes count text t ↔
    ∃ k body u, text = List.replicate k '[' ++ body ∧ Plain count body u ∧ t = Ty.array^[k] u := by
  constructor
  · intro h
    induction h with
    | primitive hp => exact ⟨0, _, _, rfl, .primitive (mem_primitives.mpr ⟨hp, rfl⟩), rfl⟩
    | object hm hlow hhigh =>
      obtain ⟨hspells, hrange⟩ := Numeral.decimal?_eq_some.mp hm
      exact ⟨0, _, _, rfl, .object hspells hrange ⟨hlow, hhigh⟩, rfl⟩
    | array _ ih =>
      obtain ⟨k, body, u, rfl, hu, rfl⟩ := ih
      exact ⟨k + 1, body, u, rfl, hu, (Function.iterate_succ_apply' _ _ _).symm⟩
  · rintro ⟨k, body, u, rfl, hu, rfl⟩
    induction k with
    | zero => exact hu.denotes
    | succ k ih =>
      rw [Function.iterate_succ_apply']
      exact .array ih

theorem typeOf_eq_ok : typeOf count s = .ok t ↔ Reads count s t := by
  rw [typeOf_ok, denotes_iff, Reads]

theorem typeOfChars_error (h : typeOfChars count text = .error reason) :
    reason = complaint (text.dropWhile (· == '[')) := by
  fun_induction typeOfChars count text with
  | case1 => cases h
  | case2 rest reason' hrest ih =>
    obtain rfl := Except.error.inj h
    rw [List.dropWhile_cons_of_pos (by rfl)]
    exact ih hrest
  | case3 rest hrest =>
    -- only nothing reads as no type, so the last bracket is all there is
    have hnil : rest = [] := (typeOfChars_ok.mp hrest).elim And.left fun h => absurd rfl h.ne_absent
    obtain rfl := Except.error.inj h
    rw [hnil]
    rfl
  | case4 => cases h
  | case5 => cases h
  | case6 rest => exact (Except.error.inj h).symm
  | case7 rest => exact (Except.error.inj h).symm
  | case8 => cases h
  | case9 text hnil harray hobject hnone =>
    obtain rfl := Except.error.inj h
    cases text with
    | nil => exact absurd rfl hnil
    | cons c rest =>
      have hopen : c ≠ '[' := fun hc => harray rest (hc ▸ rfl)
      have hclass : c ≠ '@' := fun hc => hobject rest (hc ▸ rfl)
      rw [List.dropWhile_cons_of_neg (by simpa using hopen), complaint]
      · simp
      · simpa using fun hc => absurd hc hclass

end

-- ---------------------------------------------------------------------------
-- States of the encoder
-- ---------------------------------------------------------------------------

namespace Encoder

/-- A step of the encoder: a class, a type or a member is written, or the blocks change somehow. -/
inductive Writes (d : Declarations) : Encoder → Encoder → Prop
  | placeClass {c i s s'} : placeClass d c s = .ok (i, s') → Writes d s s'
  | placeType {t text s s'} : placeType d t s = .ok (text, s') → Writes d s s'
  | placeMember {m i s s'} : placeMember d m s = .ok (i, s') → Writes d s s'
  | layBlocks (s positions blocks) : Writes d s { s with positions, blocks }

def Later (d : Declarations) : Encoder → Encoder → Prop := ReflTransGen (Writes d)

/-- A computation does nothing to the state but what the encoder does step by step. -/
def Moves (d : Declarations) (x : Encode α) (s : Encoder) : Prop :=
  Yields True x s fun _ s' => Later d s s'

section
variable {d : Declarations} {g : Graph} {s s' : Encoder} {x : Encode α}

theorem Moves.pure : Moves d (pure a) s := Yields.pure .refl

theorem Moves.fail : Moves d (throw e : Encode α) s := Yields.fail trivial

theorem Moves.bind {f : α → Encode β} (hx : Moves d x s) (hf : ∀ a s', Moves d (f a) s') :
    Moves d (x >>= f) s :=
  Yields.bind hx fun a s' h => (hf a s').mono fun _ _ h' => h.trans h'

theorem Moves.mapM {f : α → Encode β} {xs : List α} (hf : ∀ a s, Moves d (f a) s) :
    Moves d (xs.mapM f) s := by
  induction xs generalizing s with
  | nil => exact .pure
  | cons a xs ih =>
    rw [List.mapM_cons]
    exact (hf a s).bind fun _ _ => ih.bind fun _ _ => .pure

theorem Moves.layBlocks (positions : Array (Option Nat)) (blocks : Array Block)
    (hx : Moves d x { s with positions, blocks }) :
    Yields True x { s with positions, blocks } fun _ s' => Later d s s' :=
  hx.mono fun _ _ h => .head (.layBlocks s positions blocks) h

theorem moves_of_writes (h : ∀ a s', x s = .ok (a, s') → Writes d s s') : Moves d x s := by
  unfold Moves Yields
  split
  · rename_i a s' hrun
    exact .single (h a s' hrun)
  · trivial

theorem moves_placeType : Moves d (placeType d t) s := moves_of_writes fun _ _ => .placeType

theorem moves_placeMember : Moves d (placeMember d m) s := moves_of_writes fun _ _ => .placeMember

theorem moves_reference : Moves d (reference d m) s := moves_placeMember.bind fun _ _ => .pure

theorem moves_instrEntry {calls : Array Call} : Moves d (instrEntry d calls i) s := by
  cases i with
  | nop | not => exact .pure
  | getField m | putField m => exact moves_reference.bind fun _ _ => .pure
  | call site =>
    rw [instrEntry]
    split
    · exact .fail
    · exact moves_reference.bind fun _ _ =>
        (Moves.mapM fun _ _ => moves_reference).bind fun _ _ => .pure
  | _ => exact moves_placeType.bind fun _ _ => .pure

theorem moves_blockEntry : Moves d (blockEntry d g owner b) s := by
  refine Yields.get (Moves.bind (.mapM fun succ s => ?_) fun _ _ =>
    (Moves.mapM fun _ _ => moves_instrEntry).bind fun _ _ => .pure)
  split
  · exact .pure
  · exact .fail

theorem moves_writeBlocks : Moves d (writeBlocks d g owner rs) s := by
  induction rs generalizing s with
  | nil => exact .pure
  | cons r rs ih =>
    rw [writeBlocks]
    split
    · exact .fail
    · exact moves_blockEntry.bind fun entry s =>
        Yields.modify (Moves.layBlocks s.positions (s.blocks.push entry) ih)

theorem moves_placeGraph : Moves d (placeGraph d g owner root) s := by
  refine Yields.get ?_
  split
  · exact Yields.pure .refl
  · split
    · exact Yields.fail trivial
    · refine Yields.get (Yields.set ?_)
      rw [placeBlocks_eq]
      exact Moves.layBlocks _ s.blocks (moves_writeBlocks.bind fun _ _ => .pure)

theorem moves_placeBodies : Moves d (placeBodies d g code ms) s := by
  induction ms generalizing s with
  | nil => exact .pure
  | cons m ms ih =>
    rw [placeBodies]
    split
    · exact .fail
    · exact moves_placeGraph.bind fun _ _ => moves_placeMember.bind fun _ _ =>
        ih.bind fun _ _ => .pure

theorem moves_write {entry : Option MemberId} {reachable : List MemberId} :
    Moves d (write d g code entry order reachable) s :=
  moves_placeMember.bind fun _ _ => moves_placeBodies.bind fun _ _ =>
    (Moves.mapM fun _ _ => moves_placeMember.bind fun _ _ => .pure).bind fun _ _ => .pure

theorem later_image {entry : Option MemberId} {runId : RunId}
    {reachable : Option (List MemberId)} {img : Image}
    (h : Encoder.image d g code entry order runId reachable = .ok img) :
    ∃ s, Later d (start g) s ∧ img.classes.getD [] = s.classes.toList := by
  obtain ⟨⟨⟨entry', bodies, listed⟩, s⟩, hrun, h⟩ := bind_ok.mp h
  obtain rfl := Except.ok.inj h
  exact ⟨s, moves_write.of_ok hrun, getD_nonempty _⟩

-- ---------------------------------------------------------------------------
-- What every state of the encoder is like
-- ---------------------------------------------------------------------------

def DeclaredUp (d : Declarations) (c : ClassId) : Prop :=
  ∀ x, ReflTransGen d.Extends c x → x < d.classes.size

theorem placeable_univ : Placeable True d Set.univ Set.univ :=
  ⟨fun _ _ _ => trivial, fun _ _ _ _ => trivial, fun _ _ _ => trivial, fun _ _ _ _ _ _ => trivial⟩

theorem Writes.grows (h : Writes d s s') (hs : Tables d Set.univ Set.univ s) :
    Grows d Set.univ Set.univ s s' := by
  cases h with
  | placeClass hrun =>
    exact ((placeClass_yields placeable_univ hs trivial).of_ok hrun).1.step.toGrows
  | placeType hrun =>
    exact ((placeType_yields placeable_univ hs fun _ _ => trivial).of_ok hrun).1.step.toGrows
  | @placeMember m _ _ _ hrun =>
    cases m with
    | none => cases hrun
    | some m => exact ((placeMember_yields placeable_univ hs trivial).of_ok hrun).1.toGrows
  | layBlocks => exact ⟨hs.withBlocks _ _, List.prefix_rfl, List.prefix_rfl⟩

theorem Later.grows (h : Later d s s') (hs : Tables d Set.univ Set.univ s) :
    Grows d Set.univ Set.univ s s' := by
  induction h with
  | refl => exact ⟨hs, List.prefix_rfl, List.prefix_rfl⟩
  | tail _ hstep ih => exact ih.trans (hstep.grows ih.tables)

theorem Later.tables (h : Later d (start g) s) : Tables d Set.univ Set.univ s :=
  (h.grows (Laid.start d g Set.univ Set.univ Set.univ).tables).tables

theorem Later.withSupers (h : Later d (start g) s) (hlimit : d.classes.size < 2 ^ 63) :
    WithSupers d s.classIds := by
  have htables := h.tables
  have hsub : s.classIds ⊆ List.range d.classes.size := by
    intro c hc
    obtain ⟨k, hk⟩ := htables.classesThere c hc
    exact List.mem_range.mpr (Array.getElem?_eq_some_iff.mp hk).1
  have hlength := (List.subperm_of_subset htables.classesNodup hsub).length_le
  rw [List.length_range] at hlength
  exact ⟨htables.classesThere, htables.supers, Nat.lt_of_le_of_lt hlength hlimit⟩

theorem Later.classes_eq (h : Later d (start g) s) : s.classes.toList = classRows d s.classIds :=
  h.tables.classRows _ (agrees_number h.tables.classesNodup)

theorem Tables.declaredUp (h : Tables d Set.univ Set.univ s) (hc : c ∈ s.classIds) :
    DeclaredUp d c := by
  intro x hx
  have hmem : x ∈ s.classIds := by
    induction hx with
    | refl => exact hc
    | tail _ hstep ih => exact h.supers _ ih _ hstep
  obtain ⟨k, hk⟩ := h.classesThere x hmem
  exact (Array.getElem?_eq_some_iff.mp hk).1

theorem Tables.placeable (h : Tables d Set.univ Set.univ s) :
    Placeable False d {c | DeclaredUp d c} {m | m ∈ s.memberIds} ∧
      Tables d {c | DeclaredUp d c} {m | m ∈ s.memberIds} s := by
  refine ⟨⟨fun c hc hnone => ?_, fun c hc p hp x hx => hc x (.head hp hx), fun m hm hnone => ?_,
    fun m hm k hk c hmention => ?_⟩,
    { h with classesIn := fun _ => h.declaredUp, membersIn := fun _ hm => hm }⟩
  · exact absurd (hc c .refl) (by simpa using hnone)
  · obtain ⟨k, hk⟩ := h.membersThere m hm
    simp [hk] at hnone
  · exact h.declaredUp (h.mentions m hm c (Declarations.memberAt_eq hk ▸ hmention))

theorem Later.placeType (h : Later d (start g) s) {t : Ty} (ht : ∀ c ∈ t.class?, DeclaredUp d c) :
    ∃ text s', placeType d t s = .ok (text, s') ∧ Spelled t text s' := by
  obtain ⟨hplaceable, htables⟩ := h.tables.placeable
  obtain ⟨text, s', hrun, -, hspelled⟩ := (placeType_yields hplaceable htables ht).exists_ok
  exact ⟨text, s', hrun, hspelled⟩

end

end Encoder

-- ---------------------------------------------------------------------------
-- Written and read
-- ---------------------------------------------------------------------------

/-- The classes that were read are those that were placed, each under its number: of the same name,
and with the same superclass, which was placed too. -/
structure Matches (d d' : Declarations) (placed : List ClassId) : Prop where
  size : d'.classes.size = placed.length
  distinct : ∀ c ∈ placed, ∀ c', number placed c = number placed c' → c = c'
  supers : ∀ c ∈ placed, ∀ s, d.Extends c s → s ∈ placed
  classes : ∀ c ∈ placed, ∃ k, d.classes[c]? = some k ∧
    d'.classes[number placed c]? = some ⟨k.name, k.super.map (number placed)⟩

theorem WithSupers.matches_of_decode (h : WithSupers d cs)
    (hd : decodeClasses (classRows d cs) = .ok d') : Matches d d' cs := by
  have hlength : (classRows d cs).length = cs.length := List.length_map ..
  obtain ⟨rfl, -⟩ := decodeClasses_ok hd
  rw [hlength, h.map_toDecl]
  refine ⟨by simp, fun c hc c' heq => (number_inj hc).mp heq, h.supers, fun c hc => ?_⟩
  obtain ⟨k, hk⟩ := h.there c hc
  exact ⟨k, hk, by simp [getElem?_number hc, Declarations.classAt_eq hk]⟩

/-- Whatever the encoder goes on to write, the text reads as the type, over the classes that are
read from the table it has then. -/
def Lasts (d : Declarations) (t : Ty) (text : String) (s : Encoder) : Prop :=
  ∀ later, Encoder.Later d s later → ∀ d', decodeClasses later.classes.toList = .ok d' →
    Matches d d' later.classIds ∧ (∀ c ∈ t.class?, c ∈ later.classIds) ∧
      ∃ t', typeOf d'.classes.size text = .ok t' ∧
        (t.rename (number later.classIds)).equal t' = true

open Encoder (start placeType Later)

theorem lasts_of_spelled (hs : Later d (start g) s) (hspelled : Encoder.Spelled t text s)
    (ht : t = .absent ∨ t.isWellFormed) (hlimit : d.classes.size < 2 ^ 63) : Lasts d t text s := by
  intro later hlater d' hd
  have hreached : Later d (start g) later := hs.trans hlater
  have hlisted := hreached.withSupers hlimit
  obtain ⟨htext, hclasses⟩ := hspelled.mono (hlater.grows hs.tables).classIds
  have hmatches := hlisted.matches_of_decode (hreached.classes_eq ▸ hd)
  refine ⟨hmatches, hclasses, t.rename (number later.classIds), ?_, Ty.equal_iff.mpr rfl⟩
  rw [htext _ (Encoder.agrees_number hreached.tables.classesNodup), hmatches.size]
  exact typeOf_spelling ht (fun c hc => number_lt (hclasses c hc)) hlisted.limit

/-- In every state of the encoder a type can be written, if its class and those above it are there,
and its text goes on to read as that type. The class tables that are read are those of classes with
names and without cycles, and those of images are among them. A text is read if it is one of a type,
and nothing else is. -/
theorem typeOf_placeType (d : Declarations) :
    (d.classes.size < 2 ^ 63 → ∀ g s, Later d (start g) s →
      ((∃ d', decodeClasses s.classes.toList = .ok d') ↔
        ∀ c ∈ s.classIds, (d.classAt c).name ≠ "" ∧ ¬ TransGen d.Extends c c) ∧
      ∀ t : Ty, t = .absent ∨ t.isWellFormed → (∀ c ∈ t.class?, Encoder.DeclaredUp d c) →
        ∃ text s', placeType d t s = .ok (text, s') ∧ Lasts d t text s') ∧
    (∀ g code entry order runId reachable img,
      Encoder.image d g code entry order runId reachable = .ok img →
        ∃ s, Later d (start g) s ∧ img.classes.getD [] = s.classes.toList) ∧
    ∀ count s,
      (∀ t, typeOf count s = .ok t ↔ Reads count s t) ∧
      ((∀ t, ¬ Reads count s t) →
        typeOf count s = .error (complaint (s.toList.dropWhile (· == '[')))) := by
  refine ⟨fun hlimit g s hs => ⟨?_, fun t ht hclasses => ?_⟩,
    fun g code entry order runId reachable img => Encoder.later_image,
    fun count s => ⟨fun t => typeOf_eq_ok, fun hnot => ?_⟩⟩
  · have hlisted := hs.withSupers hlimit
    rw [hs.classes_eq]
    constructor
    · rintro ⟨d', hd⟩
      exact hlisted.of_decodeClasses hd
    · intro h
      exact ⟨_, hlisted.decode_classRows (fun c hc => (h c hc).1) fun c hc => (h c hc).2⟩
  · obtain ⟨text, s', hrun, hspelled⟩ := hs.placeType hclasses
    exact ⟨text, s', hrun, lasts_of_spelled (hs.tail (.placeType hrun)) hspelled ht hlimit⟩
  · cases hread : typeOf count s with
    | ok t => exact absurd (typeOf_eq_ok.mp hread) (hnot t)
    | error reason => rw [typeOfChars_error hread]

def kennel : Declarations where
  classes := #[⟨"Dog", some 1⟩, ⟨"Animal", none⟩, ⟨"Plant", none⟩]

theorem kennel_extends (h : kennel.Extends c s) : s < kennel.classes.size := by
  have hrows : ∀ k ∈ kennel.classes.toList, ∀ s ∈ k.super, s < kennel.classes.size := by decide
  obtain ⟨k, hk, hs⟩ := Option.bind_eq_some_iff.mp h
  exact hrows k (Array.mem_toList_iff.mpr (Array.mem_of_getElem? hk)) s hs

theorem typeOf_placeType_kennel :
    kennel.classes.size < 2 ^ 63 ∧ ∃ s' later d',
      placeType kennel (.array (.array (.object 0))) (start {}) = .ok ("[[@0", s') ∧
      placeType kennel (.object 2) s' = .ok ("@2", later) ∧
      decodeClasses later.classes.toList = .ok d' ∧ Matches kennel d' [0, 1, 2] ∧
      typeOf d'.classes.size "[[@0" = .ok (.array (.array (.object 0))) ∧
      typeOf d'.classes.size "[[@3" = .error (.classReference "@3") := by
  have hlimit : kennel.classes.size < 2 ^ 63 := by decide
  have hclasses : ∀ c ∈ (Ty.array (.array (.object 0))).class?, Encoder.DeclaredUp kennel c := by
    rintro _ ⟨⟩ x hx
    cases hx with
    | refl => decide
    | tail _ hext => exact kennel_extends hext
  obtain ⟨hwritten, -, -⟩ := typeOf_placeType kennel
  obtain ⟨text, s', hrun, hlasts⟩ := (hwritten hlimit {} (start {}) .refl).2 _ (.inr rfl) hclasses
  have heval : placeType kennel (.array (.array (.object 0))) (start {}) = .ok ("[[@0",
    { classIds := [0, 1], classes := #[⟨"Dog", 2⟩, ⟨"Animal", 0⟩], positions := #[] }) := rfl
  obtain ⟨rfl, rfl⟩ := Prod.mk.inj (Except.ok.inj (heval.symm.trans hrun))
  obtain ⟨later, hplant, hclassIds, hdecode⟩ : ∃ later, placeType kennel (.object 2)
      { classIds := [0, 1], classes := #[⟨"Dog", 2⟩, ⟨"Animal", 0⟩], positions := #[] } =
        .ok ("@2", later) ∧ later.classIds = [0, 1, 2] ∧
      decodeClasses later.classes.toList = .ok kennel := ⟨_, rfl, rfl, by decide⟩
  obtain ⟨hmatches, -, t', hread, hequal⟩ :=
    hlasts later (.single (.placeType hplant)) kennel hdecode
  obtain rfl := Ty.equal_iff.mp hequal
  rw [hclassIds] at hmatches hread
  exact ⟨hlimit, _, later, kennel, heval, hplant, hdecode, hmatches, hread, by decide⟩

end Image

end Linkage
