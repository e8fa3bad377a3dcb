import Linkage.Image.Bytes
import Linkage.Proofs.ItemBytes

/-!
# Numbers in narrower formats

A number that a narrower format holds exactly is the same number when it is widened again. A
floating point item is therefore read as the number it was written for, except that what is no
number comes back as the quiet one.
-/

namespace Linkage.Double

-- ---------------------------------------------------------------------------
-- Sign, exponent and fraction
-- ---------------------------------------------------------------------------

/-- A sign, `w` bits of exponent and `p` bits of fraction as one number. -/
def packed (w p : Nat) (negative : Bool) (exponent fraction : Nat) : Nat :=
  (if negative then 2 ^ (w + p) else 0) + exponent * 2 ^ p + fraction

section
variable {w p e m : Nat} {s : Bool}

theorem packed_eq : packed w p s e m = (s.toNat * 2 ^ w + e) * 2 ^ p + m := by
  cases s <;> simp [packed, Nat.pow_add, Nat.add_mul]

theorem packed_mod (hm : m < 2 ^ p) : packed w p s e m % 2 ^ p = m := by
  rw [packed_eq, Nat.mul_comm, Nat.mul_add_mod, Nat.mod_eq_of_lt hm]

theorem packed_div (hm : m < 2 ^ p) : packed w p s e m / 2 ^ p = s.toNat * 2 ^ w + e := by
  rw [packed_eq, Nat.mul_comm, Nat.mul_add_div (Nat.two_pow_pos _), Nat.div_eq_of_lt hm,
    Nat.add_zero]

theorem packed_exponent (he : e < 2 ^ w) (hm : m < 2 ^ p) :
    packed w p s e m / 2 ^ p % 2 ^ w = e := by
  rw [packed_div hm, Nat.mul_comm, Nat.mul_add_mod, Nat.mod_eq_of_lt he]

theorem packed_testBit (he : e < 2 ^ w) (hm : m < 2 ^ p) :
    (packed w p s e m).testBit (w + p) = s := by
  have hdiv : packed w p s e m / 2 ^ (w + p) = s.toNat := by
    rw [Nat.add_comm, Nat.pow_add, ← Nat.div_div_eq_div_mul, packed_div hm, Nat.mul_comm,
      Nat.mul_add_div (Nat.two_pow_pos _), Nat.div_eq_of_lt he, Nat.add_zero]
  rw [Nat.testBit_eq_decide_div_mod_eq, hdiv]
  cases s <;> rfl

theorem packed_lt (he : e < 2 ^ w) (hm : m < 2 ^ p) : packed w p s e m < 2 ^ (w + p + 1) := by
  have hdiv : packed w p s e m / 2 ^ p < 2 ^ (w + 1) := by
    rw [packed_div hm, Nat.pow_succ]
    cases s <;> simp <;> omega
  have hlt := (Nat.div_lt_iff_lt_mul (Nat.two_pow_pos _)).mp hdiv
  rwa [← Nat.pow_add, show w + 1 + p = w + p + 1 by omega] at hlt

end

theorem fraction_lt (x : Double) : x.fraction < 2 ^ 52 := Nat.mod_lt _ (by decide)

theorem toNat_bits (x : Double) :
    x.bits.toNat = packed 11 52 x.isNegative x.exponent x.fraction := by
  have hlt := x.bits.toNat_lt
  have hsign : x.isNegative.toNat = x.bits.toNat / 2 ^ 63 := by
    rw [isNegative, Nat.testBit_eq_decide_div_mod_eq]
    rcases (show x.bits.toNat / 2 ^ 63 = 0 ∨ x.bits.toNat / 2 ^ 63 = 1 by omega) with h | h
    all_goals rw [h]; rfl
  simp only [packed_eq, hsign, exponent, fraction, Nat.pow_eq]
  omega

theorem ofParts_eq (x : Double) : ofParts x.isNegative x.exponent x.fraction = x := by
  have hbits : packed 11 52 x.isNegative x.exponent x.fraction = x.bits.toNat := x.toNat_bits.symm
  rw [packed] at hbits
  simp only [ofParts, Nat.pow_eq, hbits, UInt64.ofNat_toNat]

-- ---------------------------------------------------------------------------
-- Narrowing and widening
-- ---------------------------------------------------------------------------

section
variable {f : Format} {x : Double}

theorem widen_packed (he : e < 2 ^ f.exponentBits) (hm : m < 2 ^ f.fractionBits)
    (hfinite : e ≠ 2 ^ f.exponentBits - 1) (hnormal : e ≠ 0) :
    widen f (packed f.exponentBits f.fractionBits s e m) =
      ofParts s (1023 + e - f.bias) (m * 2 ^ (52 - f.fractionBits)) := by
  simp only [widen, Nat.pow_eq, packed_testBit he hm, packed_exponent he hm, packed_mod hm,
    if_neg hfinite, if_neg hnormal]

theorem widen_packed_zero (hw : 2 ≤ f.exponentBits) (hm : m < 2 ^ f.fractionBits) (h0 : m ≠ 0) :
    widen f (packed f.exponentBits f.fractionBits s 0 m) =
      ofParts s (1024 + m.log2 - f.bias - f.fractionBits)
        ((m - 2 ^ m.log2) * 2 ^ (52 - m.log2)) := by
  have he : 0 < 2 ^ f.exponentBits := Nat.two_pow_pos _
  have hfinite : 0 ≠ 2 ^ f.exponentBits - 1 := by
    have := Nat.pow_le_pow_right (show 0 < 2 by decide) hw
    omega
  simp only [widen, Nat.pow_eq, packed_testBit he hm, packed_exponent he hm, packed_mod hm,
    if_neg hfinite, if_neg h0, ↓reduceIte]

theorem two_mul_bias (hw : 1 ≤ f.exponentBits) : 2 * f.bias + 2 = 2 ^ f.exponentBits := by
  have hpos := Nat.two_pow_pos (f.exponentBits - 1)
  have hsucc : 2 ^ f.exponentBits = 2 ^ (f.exponentBits - 1) * 2 := by
    rw [← Nat.pow_succ, Nat.succ_eq_add_one, Nat.sub_add_cancel hw]
  rw [Format.bias, Nat.pow_eq, hsucc]
  omega

theorem narrow?_normal (h : narrow? f x = some n) (he : 1024 ≤ x.exponent + f.bias) :
    x.exponent ≠ 0 ∧ x.exponent ≤ 1023 + f.bias ∧ x.fraction % 2 ^ (52 - f.fractionBits) = 0 ∧
      n = packed f.exponentBits f.fractionBits x.isNegative (x.exponent + f.bias - 1023)
        (x.fraction / 2 ^ (52 - f.fractionBits)) := by
  have hexp : ((x.exponent : Int) - 1023 + f.bias).toNat = x.exponent + f.bias - 1023 := by omega
  simp only [narrow?, Nat.pow_eq, hexp] at h
  split at h
  case isTrue => simp at h
  case isFalse hr =>
    rw [if_pos (by omega)] at h
    split at h
    case isFalse => simp at h
    case isTrue hunit =>
      simp only [Option.some.injEq] at h
      refine ⟨by omega, by omega, hunit, ?_⟩
      rw [← h, packed, Format.signBit, Nat.pow_eq]

theorem narrow?_subnormal (h : narrow? f x = some n) (he : x.exponent + f.bias < 1024) :
    x.exponent ≠ 0 ∧ x.significand % 2 ^ (1076 - x.exponent - f.bias - f.fractionBits) = 0 ∧
      n = packed f.exponentBits f.fractionBits x.isNegative 0
        (x.significand / 2 ^ (1076 - x.exponent - f.bias - f.fractionBits)) := by
  have hunit : (53 - (f.bias : Int) - f.fractionBits - ((x.exponent : Int) - 1023)).toNat =
      1076 - x.exponent - f.bias - f.fractionBits := by omega
  simp only [narrow?, Nat.pow_eq, hunit] at h
  split at h
  case isTrue => simp at h
  case isFalse hr =>
    rw [if_neg (by omega)] at h
    split at h
    case isFalse => simp at h
    case isTrue hmod =>
      simp only [Option.some.injEq] at h
      refine ⟨by omega, hmod, ?_⟩
      rw [← h, packed, Format.signBit, Nat.pow_eq]
      omega

theorem significand_bounds (h : x.exponent ≠ 0) :
    2 ^ 52 ≤ x.significand ∧ x.significand < 2 ^ 53 ∧ x.significand - 2 ^ 52 = x.fraction := by
  have := x.fraction_lt
  simp only [significand, Nat.pow_eq, if_neg h]
  omega

/-- A number below the exponents of a format, which the format holds with a smaller significand:
the leading bit of that significand says what the exponent was. -/
theorem widen_subnormal (hw : 2 ≤ f.exponentBits) (hp : f.fractionBits ≤ 52)
    (h0 : x.exponent ≠ 0) (he : x.exponent + f.bias < 1024)
    (hk : k = 1076 - x.exponent - f.bias - f.fractionBits) (hmod : x.significand % 2 ^ k = 0) :
    x.significand / 2 ^ k < 2 ^ f.fractionBits ∧
      widen f (packed f.exponentBits f.fractionBits x.isNegative 0 (x.significand / 2 ^ k)) =
        x := by
  obtain ⟨hlow, hhigh, hfrac⟩ := significand_bounds h0
  have hdvd : 2 ^ k ∣ x.significand := Nat.dvd_of_mod_eq_zero hmod
  have hk52 : k ≤ 52 := by
    have hle := Nat.le_of_dvd (by omega) hdvd
    have := (Nat.pow_lt_pow_iff_right (show 1 < 2 by decide)).mp (Nat.lt_of_le_of_lt hle hhigh)
    omega
  obtain ⟨m, hm⟩ := hdvd
  have hdiv : x.significand / 2 ^ k = m := by rw [hm, Nat.mul_div_cancel_left _ (Nat.two_pow_pos k)]
  have h52 : 2 ^ k * 2 ^ (52 - k) = 2 ^ 52 := by rw [← Nat.pow_add, Nat.add_sub_of_le hk52]
  have h53 : 2 ^ k * 2 ^ (53 - k) = 2 ^ 53 := by rw [← Nat.pow_add, Nat.add_sub_of_le (by omega)]
  have hmlow : 2 ^ (52 - k) ≤ m := Nat.le_of_mul_le_mul_left (by omega) (Nat.two_pow_pos k)
  have hmhigh : m < 2 ^ (53 - k) := Nat.lt_of_mul_lt_mul_left (a := 2 ^ k) (by omega)
  have hm0 : m ≠ 0 := by have := Nat.two_pow_pos (52 - k); omega
  have hlog : m.log2 = 52 - k := by
    rw [Nat.log2_eq_iff hm0, show 52 - k + 1 = 53 - k by omega]
    exact ⟨hmlow, hmhigh⟩
  have hmp : m < 2 ^ f.fractionBits :=
    Nat.lt_of_lt_of_le hmhigh (Nat.pow_le_pow_right (by decide) (by omega))
  refine ⟨hdiv ▸ hmp, ?_⟩
  have hexp : 1024 + (52 - k) - f.bias - f.fractionBits = x.exponent := by omega
  have hfraction : (m - 2 ^ (52 - k)) * 2 ^ (52 - (52 - k)) = x.fraction := by
    rw [show 52 - (52 - k) = k by omega, Nat.mul_comm, Nat.mul_sub, ← hm, h52, hfrac]
  rw [hdiv, widen_packed_zero hw hmp hm0, hlog, hexp, hfraction, ofParts_eq]

/-- What a narrower format holds exactly is the same number again when it is widened. -/
theorem widen_narrow? (hw : 2 ≤ f.exponentBits) (hp : f.fractionBits ≤ 52)
    (h : narrow? f x = some n) :
    n < 2 ^ (f.exponentBits + f.fractionBits + 1) ∧ widen f n = x := by
  have hbias := two_mul_bias (f := f) (by omega)
  by_cases he : 1024 ≤ x.exponent + f.bias
  · obtain ⟨h0, hmax, hmod, rfl⟩ := narrow?_normal h he
    have hm : x.fraction / 2 ^ (52 - f.fractionBits) < 2 ^ f.fractionBits := by
      apply Nat.div_lt_of_lt_mul
      rw [← Nat.pow_add, Nat.sub_add_cancel hp]
      exact x.fraction_lt
    have hlt : x.exponent + f.bias - 1023 < 2 ^ f.exponentBits := by omega
    refine ⟨packed_lt hlt hm, ?_⟩
    rw [widen_packed hlt hm (by omega) (by omega), Nat.div_mul_cancel (Nat.dvd_of_mod_eq_zero hmod),
      show 1023 + (x.exponent + f.bias - 1023) - f.bias = x.exponent by omega, ofParts_eq]
  · obtain ⟨h0, hmod, rfl⟩ := narrow?_subnormal h (by omega)
    obtain ⟨hm, hwiden⟩ := widen_subnormal hw hp h0 (by omega) rfl hmod
    exact ⟨packed_lt (Nat.two_pow_pos _) hm, hwiden⟩

end

-- ---------------------------------------------------------------------------
-- Floating point items
-- ---------------------------------------------------------------------------

/-- A number up to the sign of zero, with one representative for all that is no number. -/
def canonical (x : Double) : Double :=
  if x.isNaN then nan else if x.isZero then zero else x

theorem canonical_canonical (x : Double) : x.canonical.canonical = x.canonical := by
  have hnan : nan.canonical = nan := by decide
  have hzero : zero.canonical = zero := by decide
  unfold canonical
  split
  · exact hnan
  · split
    · exact hzero
    · simp [*]

open Cbor (Item)

theorem widen_infinite (s : Bool) :
    widen .half (if s then 0xFC00 else 0x7C00) = ofParts s 0x7FF 0 := by
  cases s <;> decide

theorem ofItem_floatItem (x : Double) (h : x.isZero = false) :
    Item.Kind.double.ofItem (Image.floatItem x) = some x.canonical := by
  simp only [Image.floatItem, canonical, h]
  split
  · decide
  split
  case isTrue hinf =>
    obtain ⟨he, hm⟩ : x.exponent = 0x7FF ∧ x.fraction = 0 := by simpa [isInfinite] using hinf
    have hx := ofParts_eq x
    rw [he, hm, ← widen_infinite] at hx
    simp [Item.Kind.ofItem, Item.untagged, Item.isNull, Item.Kind.double, hx]
  cases hh : x.narrow? .half with
  | some n =>
    have hn := (widen_narrow? (f := .half) (by decide) (by decide) hh).2
    simp [Item.Kind.ofItem, Item.untagged, Item.isNull, Item.Kind.double, hn]
  | none =>
    cases hs : x.narrow? .single with
    | some n =>
      have hn := (widen_narrow? (f := .single) (by decide) (by decide) hs).2
      simp [Item.Kind.ofItem, Item.untagged, Item.isNull, Item.Kind.double, hn]
    | none => simp [Item.Kind.ofItem, Item.untagged, Item.isNull, Item.Kind.double]

theorem fits_floatItem (x : Double) : (Image.floatItem x).Fits levels := by
  unfold Image.floatItem
  split
  · exact .half (by decide)
  split
  · exact .half (by split <;> decide)
  cases hh : x.narrow? .half with
  | some n => exact .half (widen_narrow? (f := .half) (by decide) (by decide) hh).1
  | none =>
    cases hs : x.narrow? .single with
    | some n => exact .single (widen_narrow? (f := .single) (by decide) (by decide) hs).1
    | none => exact .double

end Linkage.Double
