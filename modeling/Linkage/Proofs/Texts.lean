import Linkage.RunId
import Linkage.Text.Numeral
import Mathlib.Algebra.Group.Int.Defs
import Mathlib.Algebra.Group.Nat.Defs
import Mathlib.Data.Int.Init
import Mathlib.Data.List.Basic

/-!
# Texts read back

Strings from their UTF-8, whole numbers from their decimal digits, and run identifiers from their
hyphenated form.
-/

namespace Linkage

-- ---------------------------------------------------------------------------
-- UTF-8
-- ---------------------------------------------------------------------------

namespace Utf8

theorem toList_loop (bs : ByteArray) (i : Nat) (front : List UInt8) :
    ByteArray.toList.loop bs i front = front.reverse ++ bs.data.toList.drop i := by
  fun_induction ByteArray.toList.loop bs i front with
  | case1 i front hi ih =>
    have hi' : i < bs.data.toList.length := by simpa using hi
    have hget : bs.get! i = bs.data.toList.get ⟨i, hi'⟩ := getElem!_pos bs.data i hi
    rw [ih, List.drop_eq_getElem_cons hi', hget]
    simp
  | case2 i front hi =>
    rw [List.drop_eq_nil_of_le (by simpa using hi), List.append_nil]

theorem toList_eq (bs : ByteArray) : bs.toList = bs.data.toList := by
  simpa [ByteArray.toList] using toList_loop bs 0 []

@[simp] theorem text?_bytesOf (s : String) : text? (bytesOf s) = some s := by
  have h : (⟨(bytesOf s).toArray⟩ : ByteArray) = s.toByteArray := by
    simp [bytesOf, toList_eq, String.toUTF8]
  rw [text?, h, String.fromUTF8?, dif_pos s.isValidUTF8]
  rfl

@[simp] theorem isValid_bytesOf (s : String) : isValid (bytesOf s) = true := by
  simp [isValid]

theorem length_bytesOf (s : String) : (bytesOf s).length = s.utf8ByteSize := by
  simp [bytesOf, toList_eq, String.toUTF8]

theorem bytesOf_ofList (cs : List Char) :
    bytesOf (String.ofList cs) = cs.flatMap String.utf8EncodeChar := by
  simp [bytesOf, toList_eq, String.toUTF8, List.utf8Encode]

@[simp] theorem isValid_nil : isValid [] = true := by
  have h := isValid_bytesOf (String.ofList [])
  rwa [bytesOf_ofList] at h

def asciiByte (c : Char) : UInt8 := UInt8.ofNat c.toNat

theorem bytesOf_ascii (cs : List Char) (h : ∀ c ∈ cs, c.toNat < 128) :
    bytesOf (String.ofList cs) = cs.map asciiByte := by
  rw [bytesOf_ofList]
  induction cs with
  | nil => rfl
  | cons c cs ih =>
    have hc : c.toNat < 128 := h c (by simp)
    have hchar : String.utf8EncodeChar c = [asciiByte c] := by
      rw [String.utf8EncodeChar, if_pos (by have : c.val.toNat = c.toNat := rfl; omega)]
      rfl
    rw [List.flatMap_cons, hchar, ih fun c hc => h c (by simp [hc])]
    rfl

end Utf8

-- ---------------------------------------------------------------------------
-- Numerals
-- ---------------------------------------------------------------------------

namespace Numeral

theorem isDigit_of_mem_toDigits (h : c ∈ Nat.toDigits 10 n) : isDigit c = true := by
  have := Nat.isDigit_of_mem_toDigits (by decide) (by decide) h
  simpa [isDigit, Char.isDigit, Char.le_def] using this

theorem digits?_toDigits (n : Nat) : digits? (Nat.toDigits 10 n) = some n := by
  have hall : (Nat.toDigits 10 n).all isDigit = true :=
    List.all_eq_true.mpr fun _ => isDigit_of_mem_toDigits
  have hvalue := Nat.ofDigitChars_ten_toDigits (n := n)
  rw [Nat.ofDigitChars_eq_foldl] at hvalue
  simp only [digits?, hall, List.isEmpty_eq_false_iff.mpr Nat.toDigits_ne_nil]
  simp only [Nat.mul_comm 10] at hvalue
  simpa using hvalue

theorem signed_of_digits {α : Type} (rest : List Char → α) (negate : α → α)
    (h : cs.all isDigit = true) : signed rest negate cs = rest cs := by
  unfold signed
  split
  · simp [isDigit] at h
  · simp [isDigit] at h
  · rfl

theorem decimal?_toString (n : Nat) (h : n < 2 ^ 63) :
    decimal? (toString n).toList = some (n : Int) := by
  have hall : (Nat.toDigits 10 n).all isDigit = true :=
    List.all_eq_true.mpr fun _ => isDigit_of_mem_toDigits
  rw [Nat.toString_eq_ofList_toDigits, String.toList_ofList, decimal?, signed_of_digits _ _ hall,
    digits?_toDigits]
  simp only [Option.map_some, Option.filter_some, Bool.and_eq_true, decide_eq_true_eq]
  rw [if_pos (by simp only [Int.ofNat_eq_natCast, Int.pow_eq]; omega), Int.ofNat_eq_natCast]

end Numeral

-- ---------------------------------------------------------------------------
-- Hexadecimal text
-- ---------------------------------------------------------------------------

namespace Hex

theorem value?_digit : ∀ n < 16, value? (digit n) = some n := by decide

theorem toNat_digit_lt : ∀ n < 16, (digit n).toNat < 128 := by decide

theorem ofByte_eq (b : UInt8) : ofByte b = [digit (b.toNat / 16), digit (b.toNat % 16)] := by
  have h : b.toNat / 16 % 16 = b.toNat / 16 := Nat.mod_eq_of_lt (by have := b.toNat_lt; omega)
  simp [ofByte, fixed, h]

theorem toBytes?_ofByte (bytes : List UInt8) : toBytes? (bytes.flatMap ofByte) = some bytes := by
  induction bytes with
  | nil => rfl
  | cons b bytes ih =>
    have hhigh := value?_digit (b.toNat / 16) (by have := b.toNat_lt; omega)
    have hlow := value?_digit (b.toNat % 16) (by omega)
    have hsum : b.toNat / 16 * 16 + b.toNat % 16 = b.toNat := by omega
    rw [List.flatMap_cons, ofByte_eq]
    simp only [List.cons_append, List.nil_append, toBytes?, hhigh, hlow, ih, hsum,
      Option.bind_eq_bind, Option.bind_some, Option.pure_def, UInt8.ofNat_toNat]

theorem length_flatMap_ofByte (bytes : List UInt8) :
    (bytes.flatMap ofByte).length = 2 * bytes.length := by
  induction bytes with
  | nil => rfl
  | cons b bytes ih =>
    rw [List.flatMap_cons, List.length_append, ih, ofByte_eq, List.length_cons]
    simp only [List.length_cons, List.length_nil]
    omega

theorem toNat_lt_of_mem {bytes : List UInt8} (h : c ∈ bytes.flatMap ofByte) : c.toNat < 128 := by
  obtain ⟨b, -, hc⟩ := List.mem_flatMap.mp h
  simp only [ofByte_eq, List.mem_cons, List.not_mem_nil, or_false] at hc
  have := b.toNat_lt
  rcases hc with rfl | rfl <;> exact toNat_digit_lt _ (by omega)

end Hex

-- ---------------------------------------------------------------------------
-- Run identifiers
-- ---------------------------------------------------------------------------

namespace RunId

open Utf8 (asciiByte)

theorem chars_ascii (cs : List Char) (h : ∀ c ∈ cs, c.toNat < 128) :
    chars (cs.map Utf8.asciiByte) = cs := by
  induction cs with
  | nil => rfl
  | cons c cs ih =>
    have hc : c.toNat % 2 ^ 8 = c.toNat := Nat.mod_eq_of_lt (by have := h c (by simp); omega)
    have ih := ih fun c hc => h c (by simp [hc])
    simp only [chars, List.map_cons, Utf8.asciiByte, UInt8.toNat_ofNat', hc,
      Char.ofNat_toNat] at ih ⊢
    rw [ih]

theorem ofHyphenated_groups {a b c d e : List UInt8} (ha : a.length = 8) (hb : b.length = 4)
    (hc : c.length = 4) (hd : d.length = 4) (he : e.length = 12) :
    ofHyphenated (a ++ 45 :: (b ++ 45 :: (c ++ 45 :: (d ++ 45 :: e)))) =
      ofDigits (a ++ b ++ c ++ d ++ e) := by
  simp [ofHyphenated, List.getElem?_append, List.drop_append,
    List.drop_eq_nil_of_le, List.take_of_length_le, ha, hb, hc, hd, he]

section
variable (id : RunId)

def digits (start count : Nat) : List Char := ((id.bytes.drop start).take count).flatMap Hex.ofByte

theorem toList_text : id.text.toList =
    id.digits 0 4 ++ '-' :: (id.digits 4 2 ++ '-' :: (id.digits 6 2 ++ '-' :: (id.digits 8 2 ++
      '-' :: id.digits 10 6))) := by
  simp [text, Hex.ofBytes, digits]

theorem ascii_digits (start count : Nat) : ∀ c ∈ id.digits start count, c.toNat < 128 :=
  fun _ => Hex.toNat_lt_of_mem

theorem ascii_text : ∀ c ∈ id.text.toList, c.toNat < 128 := by
  have hd := id.ascii_digits
  simp only [toList_text, List.forall_mem_append, List.forall_mem_cons]
  exact ⟨hd 0 4, by decide, hd 4 2, by decide, hd 6 2, by decide, hd 8 2, by decide, hd 10 6⟩

theorem length_digits (start count : Nat) (h : start + count ≤ id.bytes.length) :
    (id.digits start count).length = 2 * count := by
  rw [digits, Hex.length_flatMap_ofByte, List.length_take, List.length_drop]
  omega

theorem digits_append (h : id.bytes.length = 16) :
    id.digits 0 4 ++ id.digits 4 2 ++ id.digits 6 2 ++ id.digits 8 2 ++ id.digits 10 6 =
      id.bytes.flatMap Hex.ofByte := by
  simp only [digits, ← List.flatMap_append, List.drop_zero, ← List.take_add]
  rw [List.take_of_length_le (by omega)]

theorem bytesOf_text : Utf8.bytesOf id.text =
    (id.digits 0 4).map asciiByte ++ 45 :: ((id.digits 4 2).map asciiByte ++
      45 :: ((id.digits 6 2).map asciiByte ++ 45 :: ((id.digits 8 2).map asciiByte ++
      45 :: (id.digits 10 6).map asciiByte))) := by
  have hbytes := Utf8.bytesOf_ascii _ id.ascii_text
  rw [String.ofList_toList, toList_text] at hbytes
  simpa [show asciiByte '-' = 45 from rfl] using hbytes

theorem length_bytesOf_text (h : id.bytes.length = 16) : (Utf8.bytesOf id.text).length = 36 := by
  simp [bytesOf_text, length_digits, h]

theorem parse_text (h : id.bytes.length = 16) : parse id.text = .ok id := by
  have hchars : ∀ c ∈ id.bytes.flatMap Hex.ofByte, c.toNat < 128 := fun _ => Hex.toNat_lt_of_mem
  have hgroups := ofHyphenated_groups (a := (id.digits 0 4).map asciiByte)
    (b := (id.digits 4 2).map asciiByte) (c := (id.digits 6 2).map asciiByte)
    (d := (id.digits 8 2).map asciiByte) (e := (id.digits 10 6).map asciiByte)
    (by simp [length_digits, h]) (by simp [length_digits, h]) (by simp [length_digits, h])
    (by simp [length_digits, h]) (by simp [length_digits, h])
  rw [← bytesOf_text] at hgroups
  simp only [← List.map_append, digits_append id h] at hgroups
  simp only [parse, length_bytesOf_text id h]
  rw [hgroups, ofDigits, chars_ascii _ hchars, Hex.toBytes?_ofByte]

theorem text_ne_empty : id.text ≠ "" := by
  intro h
  have := congrArg String.toList h
  simp [toList_text] at this

end

end RunId

end Linkage
