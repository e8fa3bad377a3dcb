import Linkage.Diagnostic
import Mathlib.Order.Basic

/-!
# Positions in a source text

The line and the column of an offset are found by halving the list of newlines. They are exact: the
line counts the newlines before the offset and the column the bytes since the last of them. So an
offset can be told from its position, and positions come in the order of the offsets.
-/

namespace Linkage

-- ---------------------------------------------------------------------------
-- Halving a range
-- ---------------------------------------------------------------------------

/-- A place of a range at which `p` begins to hold. -/
structure Parts (p : Nat → Bool) (lo hi mid : Nat) : Prop where
  lower : lo ≤ mid
  upper : mid ≤ hi
  before : ∀ i, lo ≤ i → i < mid → p i = false
  after : ∀ i, mid ≤ i → i < hi → p i = true

theorem bisect_parts {p : Nat → Bool} {lo hi : Nat} (h : lo ≤ hi)
    (hmono : ∀ i j, i ≤ j → j < hi → p i = true → p j = true) :
    Parts p lo hi (bisect p lo hi) := by
  fun_induction bisect p lo hi with
  | case1 lo hi hlt mid hp ih =>
    have hmid : lo ≤ mid ∧ mid < hi := by omega
    obtain ⟨hlower, hupper, hbefore, hafter⟩ :=
      ih hmid.1 fun i j hij hj => hmono i j hij (Nat.lt_trans hj hmid.2)
    refine ⟨hlower, by omega, hbefore, fun i hi' hlt' => ?_⟩
    by_cases him : i < mid
    · exact hafter i hi' him
    · exact hmono mid i (by omega) hlt' hp
  | case2 lo hi hlt mid hp ih =>
    have hmid : lo ≤ mid ∧ mid < hi := by omega
    obtain ⟨hlower, hupper, hbefore, hafter⟩ := ih hmid.2 hmono
    refine ⟨by omega, hupper, fun i hlo' hi' => ?_, hafter⟩
    by_cases him : mid < i
    · exact hbefore i him hi'
    · rw [← Bool.not_eq_true]
      exact fun hpi => hp (hmono i mid (by omega) hmid.2 hpi)
  | case3 lo hi hlt => exact ⟨Nat.le_refl lo, h, by omega, by omega⟩

def Position.Before (p q : Position) : Prop :=
  p.line < q.line ∨ p.line = q.line ∧ p.column < q.column

namespace Sink

-- ---------------------------------------------------------------------------
-- The newlines of a text
-- ---------------------------------------------------------------------------

structure Records (text : List UInt8) (newlines : List Nat) : Prop where
  mem : ∀ n, n ∈ newlines ↔ text[n]? = some 10
  ascending : newlines.Pairwise (· < ·)

theorem mem_newlinesFrom {text : List UInt8} {start n : Nat} :
    n ∈ newlinesFrom start text ↔ ∃ k, n = start + k ∧ text[k]? = some 10 := by
  induction text generalizing start with
  | nil => simp [newlinesFrom]
  | cons b rest ih =>
    -- the first byte stands at the start, the others from the next offset on
    have hsplit : (∃ k, n = start + k ∧ (b :: rest)[k]? = some 10) ↔
        n = start ∧ b = 10 ∨ ∃ k, n = start + 1 + k ∧ rest[k]? = some 10 := by
      constructor
      · rintro ⟨k, hk, hb⟩
        cases k with
        | zero => exact .inl ⟨hk, by simpa using hb⟩
        | succ k => exact .inr ⟨k, by omega, by simpa using hb⟩
      · rintro (⟨rfl, rfl⟩ | ⟨k, hk, hb⟩)
        · exact ⟨0, rfl, rfl⟩
        · exact ⟨k + 1, by omega, by simpa using hb⟩
    rw [hsplit, newlinesFrom]
    split
    case isTrue hb => simp [ih, hb]
    case isFalse hb => simp [ih, hb]

theorem pairwise_newlinesFrom (text : List UInt8) (start : Nat) :
    (newlinesFrom start text).Pairwise (· < ·) := by
  induction text generalizing start with
  | nil => exact .nil
  | cons b rest ih =>
    rw [newlinesFrom]
    split
    case isTrue =>
      refine List.pairwise_cons.mpr ⟨fun n hn => ?_, ih (start + 1)⟩
      obtain ⟨k, rfl, -⟩ := mem_newlinesFrom.mp hn
      omega
    case isFalse => exact ih (start + 1)

theorem records_newlines (name : String) (text : List UInt8) :
    Records text (ofText name text).newlines where
  mem n := by simp [ofText, mem_newlinesFrom]
  ascending := pairwise_newlinesFrom text 0

theorem count_take (text : List UInt8) (start n : Nat) :
    (text.take n).count 10 = (newlinesFrom start text).countP (· < start + n) := by
  induction text generalizing start n with
  | nil => simp [newlinesFrom]
  | cons b rest ih =>
    cases n with
    | zero =>
      refine .symm (List.countP_eq_zero.mpr fun m hm => ?_)
      obtain ⟨k, rfl, -⟩ := mem_newlinesFrom.mp hm
      simp
    | succ n =>
      have hrest := ih (start + 1) n
      rw [show start + 1 + n = start + (n + 1) by omega] at hrest
      rw [List.take_succ_cons, newlinesFrom]
      split
      case isTrue hb => simp [hb, hrest]
      case isFalse hb => simp [hb, hrest]

-- ---------------------------------------------------------------------------
-- The newlines before an offset
-- ---------------------------------------------------------------------------

structure Splits (newlines : List Nat) (pos : Int) (count : Nat) : Prop where
  le : count ≤ newlines.length
  before : ∀ (i : Nat) n, i < count → newlines[i]? = some n → (n : Int) < pos
  after : ∀ (i : Nat) n, count ≤ i → newlines[i]? = some n → pos ≤ n

section
variable {s : Sink} {text : List UInt8} {newlines : List Nat} {pos pos' : Int} {count count' : Nat}

theorem newlinesBefore_splits (h : s.newlines.Pairwise (· < ·)) (pos : Int64) :
    Splits s.newlines pos.toInt (s.newlinesBefore pos) := by
  have hparts : Parts (fun i => (s.newlines[i]?).all fun (n : Nat) => decide (pos.toInt ≤ n)) 0
      s.newlines.length (s.newlinesBefore pos) := by
    refine bisect_parts (Nat.zero_le _) fun i j hij hj hp => ?_
    have hi : i < s.newlines.length := by omega
    simp only [List.getElem?_eq_getElem hi, List.getElem?_eq_getElem hj, Option.all_some,
      decide_eq_true_eq] at hp ⊢
    rcases Nat.eq_or_lt_of_le hij with rfl | hij
    · exact hp
    · have := List.pairwise_iff_getElem.mp h i j hi hj hij
      omega
  refine ⟨hparts.upper, fun i n hi hn => ?_, fun i n hi hn => ?_⟩
  · simpa [hn] using hparts.before i (Nat.zero_le i) hi
  · simpa [hn] using hparts.after i hi (List.getElem?_eq_some_iff.mp hn).1

theorem Splits.mono (h : Splits newlines pos count) (h' : Splits newlines pos' count')
    (hle : pos ≤ pos') : count ≤ count' := by
  by_contra hlt
  have hin : count' < newlines.length := by
    have := h.le
    omega
  have hn := List.getElem?_eq_getElem hin
  have hbefore := h.before count' _ (by omega) hn
  have hafter := h'.after count' _ (Nat.le_refl count') hn
  omega

theorem Splits.countP_eq (h : Splits newlines pos count) :
    newlines.countP (fun n : Nat => decide ((n : Int) < pos)) = count := by
  have htake : (newlines.take count).countP (fun n : Nat => decide ((n : Int) < pos)) = count := by
    rw [List.countP_eq_length.mpr, List.length_take_of_le h.le]
    intro n hn
    obtain ⟨i, hi, rfl⟩ := List.mem_take_iff_getElem.mp hn
    simpa using h.before i _ (by omega) (List.getElem?_eq_getElem (by omega))
  have hdrop : (newlines.drop count).countP (fun n : Nat => decide ((n : Int) < pos)) = 0 := by
    rw [List.countP_eq_zero]
    intro n hn
    obtain ⟨i, hi, rfl⟩ := List.mem_drop_iff_getElem.mp hn
    simpa using h.after (count + i) _ (by omega) (List.getElem?_eq_getElem (by omega))
  rw [← List.take_append_drop count newlines, List.countP_append, htake, hdrop, Nat.add_zero]

/-- The offset from which the columns of a line are counted: the newline before the line, and for
the first line the place before the text. -/
def origin (newlines : List Nat) : Nat → Int
  | 0 => -1
  | i + 1 => newlines.getD i 0

theorem Splits.origin_lt (h : Splits newlines pos count) (hpos : 0 ≤ pos) :
    -1 ≤ origin newlines count ∧ origin newlines count < pos := by
  cases count with
  | zero =>
    simp only [origin]
    omega
  | succ i =>
    have hn := List.getElem?_eq_getElem (show i < newlines.length from h.le)
    have := h.before i _ (Nat.lt_succ_self i) hn
    simp only [origin, List.getD, hn, Option.getD_some]
    omega

structure LastNewline (text : List UInt8) (pos : Int) (n : Nat) : Prop where
  newline : text[n]? = some 10
  before : (n : Int) < pos
  last : ∀ k : Nat, n < k → (k : Int) < pos → text[k]? ≠ some 10

theorem Splits.origin_cases (h : Splits newlines pos count) (hr : Records text newlines) :
    (∃ n, LastNewline text pos n ∧ origin newlines count = n) ∨
      (∀ n : Nat, (n : Int) < pos → text[n]? ≠ some 10) ∧ origin newlines count = -1 := by
  -- a newline before the offset is one of the first
  have hfirst : ∀ k : Nat, (k : Int) < pos → text[k]? = some 10 →
      ∃ j < count, newlines[j]? = some k := by
    intro k hk hnewline
    obtain ⟨j, hj⟩ := List.mem_iff_getElem?.mp ((hr.mem k).mpr hnewline)
    refine ⟨j, ?_, hj⟩
    by_contra hle
    have := h.after j k (by omega) hj
    omega
  cases count with
  | zero =>
    refine .inr ⟨fun n hn hnewline => ?_, rfl⟩
    obtain ⟨j, hj, -⟩ := hfirst n hn hnewline
    omega
  | succ i =>
    have hlt : i < newlines.length := h.le
    have hn := List.getElem?_eq_getElem hlt
    refine .inl ⟨newlines[i], ⟨(hr.mem _).mp (List.getElem_mem hlt), ?_, ?_⟩, ?_⟩
    · exact h.before i _ (Nat.lt_succ_self i) hn
    · intro k hk hpos hnewline
      obtain ⟨j, hj, hjk⟩ := hfirst k hpos hnewline
      obtain ⟨hjlt, rfl⟩ := List.getElem?_eq_some_iff.mp hjk
      rcases Nat.eq_or_lt_of_le (Nat.le_of_lt_succ hj) with rfl | hji
      · omega
      · have := List.pairwise_iff_getElem.mp hr.ascending j i hjlt hlt hji
        omega
    · simp [origin, hn]

end

-- ---------------------------------------------------------------------------
-- Positions
-- ---------------------------------------------------------------------------

section
variable {s : Sink} {pos pos' : Int64}

theorem line_position (s : Sink) (pos : Int64) :
    (s.position pos).line = s.newlinesBefore pos + 1 := rfl

/-- Below the greatest offset no column overflows. -/
theorem toInt_column (h : s.newlines.Pairwise (· < ·)) (h0 : 0 ≤ pos)
    (hmax : pos < Int64.maxValue) :
    (s.position pos).column.toInt = pos.toInt - origin s.newlines (s.newlinesBefore pos) := by
  rw [Int64.le_iff_toInt_le, Int64.toInt_zero] at h0
  rw [Int64.lt_iff_toInt_lt, Int64.toInt_maxValue] at hmax
  obtain ⟨hlower, hupper⟩ := (newlinesBefore_splits h pos).origin_lt h0
  unfold position
  cases hcount : s.newlinesBefore pos with
  | zero =>
    simp only [origin]
    rw [Int64.toInt_sub, show (-1 : Int64).toInt = -1 by decide,
      Int.bmod_eq_of_le_mul_two (by omega) (by omega)]
  | succ i =>
    simp only [hcount, origin] at hlower hupper ⊢
    rw [Int64.toInt_sub, Int64.toInt_ofNat_of_lt (by omega),
      Int.bmod_eq_of_le_mul_two (by omega) (by omega)]

structure Locates (text : List UInt8) (pos : Int) (p : Position) : Prop where
  line : p.line = 1 + (text.take pos.toNat).count 10
  column : (∃ n, LastNewline text pos n ∧ p.column.toInt = pos - n) ∨
    (∀ n : Nat, (n : Int) < pos → text[n]? ≠ some 10) ∧ p.column.toInt = pos + 1

def offsetAt (newlines : List Nat) (p : Position) : Int :=
  origin newlines (p.line - 1) + p.column.toInt

theorem locates_position (name : String) (text : List UInt8) (h0 : 0 ≤ pos)
    (hmax : pos < Int64.maxValue) :
    Locates text pos.toInt ((ofText name text).position pos) := by
  have hr := records_newlines name text
  have hs := newlinesBefore_splits hr.ascending pos
  have hcolumn := toInt_column hr.ascending h0 hmax
  refine ⟨?_, ?_⟩
  · have hcount : (newlinesFrom 0 text).countP (· < 0 + pos.toInt.toNat) =
        (ofText name text).newlinesBefore pos := by
      rw [← hs.countP_eq]
      refine List.countP_congr fun n _ => ?_
      simp only [decide_eq_true_eq]
      omega
    rw [line_position, count_take text 0, hcount, Nat.add_comm]
  · rw [hcolumn]
    rcases hs.origin_cases hr with ⟨n, hn, horigin⟩ | ⟨hnone, horigin⟩
    · exact .inl ⟨n, hn, by rw [horigin]⟩
    · exact .inr ⟨hnone, by rw [horigin]; omega⟩

theorem offsetAt_position (h : s.newlines.Pairwise (· < ·)) (h0 : 0 ≤ pos)
    (hmax : pos < Int64.maxValue) : offsetAt s.newlines (s.position pos) = pos.toInt := by
  rw [offsetAt, line_position, Nat.add_sub_cancel, toInt_column h h0 hmax]
  omega

theorem position_before (h : s.newlines.Pairwise (· < ·)) (h0 : 0 ≤ pos) (hlt : pos < pos')
    (hmax : pos' < Int64.maxValue) : (s.position pos).Before (s.position pos') := by
  have hcolumn := toInt_column h h0 (Int64.lt_trans hlt hmax)
  have hcolumn' := toInt_column h (Int64.le_trans h0 (Int64.le_of_lt hlt)) hmax
  rw [Int64.lt_iff_toInt_lt] at hlt
  have hcount := (newlinesBefore_splits h pos).mono (newlinesBefore_splits h pos') (by omega)
  rcases Nat.eq_or_lt_of_le hcount with heq | hless
  · -- on one line both columns are counted from the same newline
    refine .inr ⟨by rw [line_position, line_position, heq], ?_⟩
    rw [Int64.lt_iff_toInt_lt, hcolumn, hcolumn', heq]
    omega
  · refine .inl ?_
    rw [line_position, line_position]
    omega

/-- For every offset of a text and beyond it, below the greatest one, the position is exact. It
gives the offset back, different offsets have different positions, and a greater offset has a
position further on. -/
theorem position_exact (name : String) (text : List UInt8) (h0 : 0 ≤ pos)
    (hmax : pos < Int64.maxValue) :
    Locates text pos.toInt ((ofText name text).position pos) ∧
      1 ≤ ((ofText name text).position pos).column ∧
      Records text (ofText name text).newlines ∧
      offsetAt (ofText name text).newlines ((ofText name text).position pos) = pos.toInt ∧
      ∀ pos', 0 ≤ pos' → pos' < Int64.maxValue →
        (pos ≠ pos' → (ofText name text).position pos ≠ (ofText name text).position pos') ∧
        (pos < pos' →
          ((ofText name text).position pos).Before ((ofText name text).position pos')) := by
  have hr := records_newlines name text
  have hoffset := offsetAt_position hr.ascending h0 hmax
  refine ⟨locates_position name text h0 hmax, ?_, hr, hoffset, fun pos' h0' hmax' => ⟨?_, ?_⟩⟩
  · rw [Int64.le_iff_toInt_le, toInt_column hr.ascending h0 hmax, Int64.toInt_one]
    rw [Int64.le_iff_toInt_le, Int64.toInt_zero] at h0
    have := (newlinesBefore_splits hr.ascending pos).origin_lt h0
    omega
  · intro hne heq
    rw [heq, offsetAt_position hr.ascending h0' hmax'] at hoffset
    exact hne (Int64.toInt_inj.mp hoffset.symm)
  · intro hlt
    exact position_before hr.ascending h0 hlt hmax'

/-- A newline ends its own line, also one that stands alone. Beyond the text the last line goes
on. -/
theorem position_exact_blankLine :
    (0 : Int64) ≤ 2 ∧ (2 : Int64) < Int64.maxValue ∧
      (ofText "Main.kit" [97, 10, 10, 98]).position 2 = ⟨2, 1⟩ ∧
      (ofText "Main.kit" [97, 10, 10, 98]).position 9 = ⟨3, 7⟩ ∧
      Locates [97, 10, 10, 98] 2 ⟨2, 1⟩ ∧
      Position.Before ⟨2, 1⟩ ⟨3, 7⟩ := by
  have h0 : (0 : Int64) ≤ 2 := by decide
  have hmax : (2 : Int64) < Int64.maxValue := by decide
  have hblank : (ofText "Main.kit" [97, 10, 10, 98]).position 2 = ⟨2, 1⟩ := by
    decide +kernel
  have hbeyond : (ofText "Main.kit" [97, 10, 10, 98]).position 9 = ⟨3, 7⟩ := by
    decide +kernel
  obtain ⟨hlocates, -, -, -, hlater⟩ := position_exact "Main.kit" [97, 10, 10, 98] h0 hmax
  have hbefore := (hlater 9 (by decide) (by decide)).2 (by decide)
  rw [hblank] at hlocates hbefore
  rw [hbeyond] at hbefore
  exact ⟨h0, hmax, hblank, hbeyond, hlocates, hbefore⟩

end

end Sink

end Linkage
