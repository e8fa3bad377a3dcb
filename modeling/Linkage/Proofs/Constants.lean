import Linkage.Proofs.Reencoding

/-!
# Floating point constants

What becomes of the floating point numbers that a program holds as constants when it is written and
read again. Each is found in the block and at the place it was written from, with the same bits,
unless it is negative zero: that one is left out as if it were zero, and loses its sign. Nothing is
asked of the rest of the program but that its bytes are read. In particular, other constants may
hold values that are not of their types.
-/

namespace Linkage

-- ---------------------------------------------------------------------------
-- The sign of zero
-- ---------------------------------------------------------------------------

namespace Double

def negativeZero : Double := ⟨0x8000000000000000⟩

def unsignZero (x : Double) : Double := if x = negativeZero then zero else x

theorem eq_of_isZero {x : Double} (h : x.isZero = true) : x = zero ∨ x = negativeZero := by
  obtain ⟨hexponent, hfraction⟩ : x.exponent = 0 ∧ x.fraction = 0 := by simpa [isZero] using h
  have hparts := x.ofParts_eq
  rw [hexponent, hfraction] at hparts
  cases hsign : x.isNegative with
  | false =>
    rw [hsign] at hparts
    exact .inl (hparts.symm.trans (by decide))
  | true =>
    rw [hsign] at hparts
    exact .inr (hparts.symm.trans (by decide))

theorem canonical_eq_unsignZero {x : Double} (h : x.isNaN = false) :
    x.canonical = x.unsignZero := by
  cases hzero : x.isZero with
  | true => rcases eq_of_isZero hzero with rfl | rfl <;> decide
  | false =>
    have hne : x ≠ negativeZero := by
      rintro rfl
      exact absurd hzero (by decide)
    simp [canonical, unsignZero, h, hzero, hne]

end Double

-- ---------------------------------------------------------------------------
-- Units that hold the numbers of a program
-- ---------------------------------------------------------------------------

/-- If one instruction pushes a floating point number, then the other pushes `f` of it. What is no
number does not count. -/
def Instruction.HoldsFloat (f : Double → Double) (i i' : Instruction) : Prop :=
  ∀ x : Double, x.isNaN = false → i = .const (.primitive .float) (.float x) →
    i' = .const (.primitive .float) (.float (f x))

structure Block.HoldsFloats (f : Double → Double) (β : BlockRef → BlockRef) (b b' : Block) :
    Prop where
  code : List.Forall₂ (Instruction.HoldsFloat f) b.code b'.code
  succs : b'.succs = b.succs.map (·.map β)

/-- The unit holds the program in the numbers that it has, and `f` of each floating point number. -/
structure LinkUnit.HoldsFloats (f : Double → Double) (n : Numbering) (d : Declarations) (g : Graph)
    (entry : MemberId) (u : LinkUnit) : Prop where
  declarations : u.declarations = n.declarations d
  entry : u.entry = number n.members entry
  code : u.code = n.registry
  blocks : List.Forall₂ (Block.HoldsFloats f (number n.blocks)) (n.blocks.map g.blockAt)
    u.graph.blocks.toList

def LinkUnit.KeepsFloats (f : Double → Double) (d : Declarations) (g : Graph) (code : Registry)
    (entry : MemberId) (u : LinkUnit) : Prop :=
  ∃ n : Numbering, n.Covers d g code entry ∧ u.HoldsFloats f n d g entry

def Registry.ListsNegativeZero (g : Graph) (code : Registry) : Prop :=
  ∃ r b, code.ListsBlock g r ∧ g.blocks[r]? = some b ∧
    .const (.primitive .float) (.float .negativeZero) ∈ b.code

section
variable {d : Declarations} {g : Graph} {code : Registry} {entry : MemberId} {u : LinkUnit}

theorem LinkUnit.HoldsFloats.block {n : Numbering} (h : u.HoldsFloats f n d g entry)
    (hn : n.Covers d g code entry) (hr : code.ListsBlock g r) (hb : g.blocks[r]? = some b) :
    ∃ b' ∈ u.graph.blocks, b.HoldsFloats f (number n.blocks) b' := by
  have hmem : b ∈ n.blocks.map g.blockAt :=
    List.mem_map.mpr ⟨r, (hn.blocks r).mpr hr, Graph.blockAt_eq hb⟩
  obtain ⟨b', hb', hholds⟩ := exists_of_forall₂ h.blocks hmem
  exact ⟨b', Array.mem_toList_iff.mp hb', hholds⟩

end

theorem Image.Instr.ReadAs.holdsFloat {κ : ClassId → Nat} {μ : MemberId → Nat}
    {calls calls' : Array Call} {i i' : Instruction}
    (h : (instrRow κ μ calls i).normal.ReadAs d calls' i') : i.HoldsFloat Double.unsignZero i' := by
  rintro x hx rfl
  -- the row is that of a constant, so only one instruction can have been read from it
  obtain ⟨before, after, hread⟩ := h.read
  rw [normal_instrRow] at hread
  have hfloat := decodeInstr_float d before x.canonical
  rw [← Double.canonical_eq_unsignZero hx]
  exact (Prod.mk.inj (Except.ok.inj (hread.symm.trans hfloat))).1

-- ---------------------------------------------------------------------------
-- Programs whose bytes are read
-- ---------------------------------------------------------------------------

namespace Numbering.Accepted

open Image
open Image.Encoder (position eq_map_of_forall₂)

section
variable {n : Numbering} {d : Declarations} {g : Graph} {code : Registry} {entry : MemberId}
  {runId : RunId} {N : Nat} {u : LinkUnit}

theorem classes_eq (h : n.Accepted d g code entry runId N)
    (hu : (n.image d g entry runId).normal.ReadFrom u) :
    u.declarations.classes = (n.declarations d).classes := by
  rw [hu.classes, normal_image_classes, classes_declarations h.covers h.complete h.classes_lt,
    List.length_map]

theorem members_eq (h : n.Accepted d g code entry runId N)
    (hu : (n.image d g entry runId).normal.ReadFrom u) :
    u.declarations.members = (n.declarations d).members := by
  have hsize : u.declarations.classes.size = n.classes.length := by
    simp [h.classes_eq hu, declarations]
  have hread := hu.members
  rw [normal_image_members, List.map_map, List.forall₂_map_left_iff, hsize] at hread
  refine Array.toList_inj.mp (eq_map_of_forall₂ (forall₂_mem hread) fun m k hm => ?_)
  obtain ⟨hmem, hrow⟩ := hm
  have hlists := (h.covers.members m).mp hmem
  obtain ⟨k₀, hk₀⟩ := h.complete.members m hlists
  obtain ⟨i, hdecode⟩ := hrow.read
  obtain ⟨hname, htypes⟩ := h.member hlists hk₀
  have hparams := (h.covers.legible h.bounded).params m k₀ hlists hk₀
  have hsame := decodeMember_row (κ := number n.classes) i ⟨hname, htypes, hparams⟩
    (fun c hc => h.covers.class_lt (hlists.mentions hk₀ hc)) h.classes_lt
  rw [Function.comp_apply, Declarations.memberAt_eq hk₀, hsame] at hdecode
  rw [Declarations.memberAt_eq hk₀, Except.ok.inj hdecode]

theorem declarations_eq (h : n.Accepted d g code entry runId N)
    (hu : (n.image d g entry runId).normal.ReadFrom u) : u.declarations = n.declarations d := by
  have hclasses := h.classes_eq hu
  have hmembers := h.members_eq hu
  cases hd : u.declarations with
  | mk classes members =>
    rw [hd] at hclasses hmembers
    rw [Declarations.mk.injEq]
    exact ⟨hclasses, hmembers⟩

theorem codeMember_eq (h : n.Accepted d g code entry runId N) (hm : code.ListsMember g entry m)
    (hread : codeMember d' (position (number n.members m)) = .ok m') :
    m' = number n.members m := by
  have hlt := h.covers.member_lt hm
  have hlimit := h.members_lt
  have hindex := codeMember_index hread
  rw [toInt_position (by omega)] at hindex
  exact_mod_cast hindex.symm

theorem blocks_size (hu : (n.image d g entry runId).normal.ReadFrom u) :
    u.graph.blocks.size = n.blocks.length := by
  rw [← Array.length_toList, ← hu.blocks.length_eq, normal_image_blocks, List.length_map,
    List.length_map]

theorem code_eq (h : n.Accepted d g code entry runId N)
    (hu : (n.image d g entry runId).normal.ReadFrom u) : u.code = n.registry := by
  have hread := hu.code
  rw [normal_image_bodies, List.forall₂_map_left_iff, blocks_size hu] at hread
  refine eq_map_of_forall₂ (forall₂_mem hread) fun body body' hrow => ?_
  obtain ⟨hmem, hmember, root, hroot, hbody⟩ := hrow
  have hfind := Registry.body?_eq_some.mp ((h.covers.bodies body.1 body.2).mp hmem)
  have hlisted : code.ListsBlock g body.2 :=
    ⟨body.1, body.2, Registry.body?_eq_some.mpr hfind, .refl⟩
  have hindex := index?_position (h.covers.block_lt hlisted) h.blocks_lt
  rw [bodyRow, hindex] at hroot
  refine Prod.ext (h.codeMember_eq (.body (by simp [hfind])) hmember) ?_
  rw [hbody, ← hroot]

theorem holdsFloats (h : n.Accepted d g code entry runId N)
    (hu : (n.image d g entry runId).normal.ReadFrom u) :
    u.HoldsFloats Double.unsignZero n d g entry where
  declarations := h.declarations_eq hu
  entry := h.codeMember_eq .entry hu.start
  code := h.code_eq hu
  blocks := by
    have hread := hu.blocks
    rw [normal_image_blocks, List.forall₂_map_left_iff, List.forall₂_map_left_iff] at hread
    rw [List.forall₂_map_left_iff]
    refine (forall₂_mem hread).imp fun r b' hrow => ?_
    obtain ⟨hmem, hrow⟩ := hrow
    refine ⟨?_, ?_⟩
    · have hcode := hrow.code
      rw [code_blockRow, List.forall₂_map_left_iff] at hcode
      exact hcode.imp fun i i' hi => hi.holdsFloat
    · obtain ⟨j, hsuccs⟩ := hrow.read
      have hnumbered := successors_rows h.blocks_lt j fun succ hs =>
        h.covers.succ_lt h.complete ((h.covers.blocks r).mp hmem) hs
      rw [blocks_size hu] at hsuccs
      exact Except.ok.inj (hsuccs.symm.trans hnumbered)

theorem holdsFloats_id (h : n.Accepted d g code entry runId N) (hnone : ¬ code.ListsNegativeZero g)
    (hholds : u.HoldsFloats Double.unsignZero n d g entry) : u.HoldsFloats id n d g entry := by
  have hblocks := hholds.blocks
  rw [List.forall₂_map_left_iff] at hblocks
  refine { hholds with blocks := List.forall₂_map_left_iff.mpr ?_ }
  refine (forall₂_mem hblocks).imp fun r b' hrow => ?_
  obtain ⟨hmem, hblock⟩ := hrow
  have hr := (h.covers.blocks r).mp hmem
  obtain ⟨b, hb, -⟩ := h.complete.blocks r hr
  rw [Graph.blockAt_eq hb] at hblock ⊢
  refine ⟨(forall₂_mem hblock.code).imp fun i i' hi => ?_, hblock.succs⟩
  rintro x hx rfl
  have hne : x ≠ .negativeZero := by
    rintro rfl
    exact hnone ⟨r, b, hr, hb, hi.1⟩
  rw [hi.2 x hx rfl, Double.unsignZero, if_neg hne, id]

end

end Numbering.Accepted

namespace Image

section
variable {d : Declarations} {g : Graph} {code : Registry} {entry : MemberId} {runId : RunId}
  {bytes : List UInt8} {u : LinkUnit} {img : Image}

theorem ReadFrom.canonical_float (hu : img.normal.ReadFrom u) (hb : b ∈ u.graph.blocks)
    (hx : .const t (.float x) ∈ b.code) : x.canonical = x := by
  obtain ⟨row, hrow, hread⟩ := hu.block hb
  obtain ⟨i, hi, hread⟩ := exists_of_forall₂ hread.code.flip hx
  have hrows : img.normal.blocks.getD [] = (img.blocks.getD []).map Block.normal :=
    getD_map Block.normal img.blocks
  rw [hrows] at hrow
  obtain ⟨row, -, rfl⟩ := List.mem_map.mp hrow
  have hcode : row.normal.code.getD [] = (row.code.getD []).map Instr.normal :=
    getD_map Instr.normal row.code
  rw [hcode] at hi
  obtain ⟨i, -, rfl⟩ := List.mem_map.mp hi
  rw [hread.operands.2.2 x rfl]
  exact i.float.canonical_canonical

theorem ReadFrom.not_keepsFloats (hu : img.normal.ReadFrom u) (hzero : code.ListsNegativeZero g) :
    ¬ u.KeepsFloats id d g code entry := by
  rintro ⟨n, hn, hholds⟩
  obtain ⟨r, b, hr, hb, hmem⟩ := hzero
  obtain ⟨b', hb', hblock⟩ := hholds.block hn hr hb
  obtain ⟨i', hi', hfloat⟩ := exists_of_forall₂ hblock.code hmem
  obtain rfl := hfloat .negativeZero (by decide) rfl
  exact absurd (hu.canonical_float hb' hi') (by decide)

/-- A program that is written and whose bytes are read keeps its floating point constants, but for
the sign of zero. All their bits are kept exactly if none of them is negative zero. -/
theorem decode_keeps_floats (hkeys : (code.map (·.1)).Nodup)
    (hcode : encodeCode d g code (some entry) runId = .ok bytes) (hlen : bytes.length < 2 ^ 63)
    (hu : (LinkUnit.decode bytes issued).1 = .ok u) :
    u.KeepsFloats Double.unsignZero d g code entry ∧
      (u.KeepsFloats id d g code entry ↔ ¬ code.ListsNegativeZero g) := by
  obtain ⟨n, h, hx⟩ := exists_accepted hkeys hcode hlen hu
  have hread := readFrom_of_decode hx
  have hholds := h.holdsFloats hread
  refine ⟨⟨n, h.covers, hholds⟩, fun hkeeps hzero => hread.not_keepsFloats hzero hkeeps, ?_⟩
  exact fun hnone => ⟨n, h.covers, h.holdsFloats_id hnone hholds⟩

end

def pushingDeclarations : Declarations where
  classes := #[⟨"Main", none⟩]
  members := #[.method 0 "main" [] (.primitive .void)]

/-- The main method pushes the numbers, after a constant whose value is not of its type. -/
def pushingGraph (xs : List Double) : Graph where
  blocks := #[{ id := 0
                code := .const (.primitive .int) (.float ⟨1⟩) ::
                  xs.map fun x => .const (.primitive .float) (.float x)
                succs := [], mergeable := true }]

def pushingCode : Registry := [(0, some 0)]

def pushes (xs : List Double) : Bool :=
  match encodeCode pushingDeclarations (pushingGraph xs) pushingCode (some 0) .zero with
  | .ok bytes => bytes.length < 1000 && ((LinkUnit.decode bytes 0).1 matches .ok _)
  | .error _ => false

theorem exists_of_pushes (xs : List Double) (h : pushes xs = true) :
    ∃ bytes u,
      encodeCode pushingDeclarations (pushingGraph xs) pushingCode (some 0) .zero = .ok bytes ∧
        bytes.length < 2 ^ 63 ∧ (LinkUnit.decode bytes 0).1 = .ok u := by
  unfold pushes at h
  split at h
  case h_2 => cases h
  case h_1 bytes hbytes =>
    obtain ⟨hlen, hread⟩ := Bool.and_eq_true_iff.mp h
    refine ⟨bytes, ?_⟩
    cases hu : (LinkUnit.decode bytes 0).1 with
    | error e => simp [hu] at hread
    | ok u =>
      have hshort := of_decide_eq_true hlen
      exact ⟨u, hbytes, by omega, rfl⟩

/-- Zero, the least number above it, negative infinity, and numbers that need half, single and
double precision. -/
def samples : List Double :=
  [.zero, ⟨1⟩, ⟨0xFFF0000000000000⟩, ⟨0x3FF8000000000000⟩, ⟨0x3FF0000020000000⟩,
    ⟨0x3FF0000000000001⟩]

theorem decode_keeps_floats_samples :
    (∃ bytes u,
      encodeCode pushingDeclarations (pushingGraph samples) pushingCode (some 0) .zero =
          .ok bytes ∧ (LinkUnit.decode bytes 0).1 = .ok u ∧
        u.KeepsFloats id pushingDeclarations (pushingGraph samples) pushingCode 0) ∧
      ∃ bytes u,
        encodeCode pushingDeclarations (pushingGraph (.negativeZero :: samples)) pushingCode
            (some 0) .zero = .ok bytes ∧ (LinkUnit.decode bytes 0).1 = .ok u ∧
          u.KeepsFloats Double.unsignZero pushingDeclarations
            (pushingGraph (.negativeZero :: samples)) pushingCode 0 := by
  have hkeys : (pushingCode.map (·.1)).Nodup := by decide
  obtain ⟨bytes, u, hcode, hlen, hu⟩ := exists_of_pushes samples (by decide +kernel)
  obtain ⟨bytes', u', hcode', hlen', hu'⟩ :=
    exists_of_pushes (.negativeZero :: samples) (by decide +kernel)
  refine ⟨⟨bytes, u, hcode, hu, (decode_keeps_floats hkeys hcode hlen hu).2.mpr ?_⟩,
    bytes', u', hcode', hu', (decode_keeps_floats hkeys hcode' hlen' hu').1⟩
  rintro ⟨r, b, -, hb, hmem⟩
  obtain rfl := List.mem_singleton.mp (Array.mem_toList_iff.mpr (Array.mem_of_getElem? hb))
  revert hmem
  decide

/-- Not every floating point constant that is written and read keeps its bits: negative zero does
not. -/
theorem decode_loses_negative_zero :
    ¬ ∀ (d : Declarations) (g : Graph) (code : Registry) (entry : MemberId) (runId : RunId)
      (bytes : List UInt8) (issued : Nat) (u : LinkUnit), (code.map (·.1)).Nodup →
        encodeCode d g code (some entry) runId = .ok bytes → bytes.length < 2 ^ 63 →
        (LinkUnit.decode bytes issued).1 = .ok u → u.KeepsFloats id d g code entry := by
  intro h
  have hkeys : (pushingCode.map (·.1)).Nodup := by decide
  obtain ⟨bytes, u, hcode, hlen, hu⟩ := exists_of_pushes [.negativeZero] (by decide +kernel)
  obtain ⟨n, -, hx⟩ := exists_accepted hkeys hcode hlen hu
  refine (readFrom_of_decode hx).not_keepsFloats ?_ (h _ _ _ 0 .zero _ 0 _ hkeys hcode hlen hu)
  exact ⟨0, _, ⟨0, 0, rfl, .refl⟩, rfl, by decide⟩

end Image

end Linkage
