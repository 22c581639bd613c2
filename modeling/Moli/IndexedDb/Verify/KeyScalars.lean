import Moli.IndexedDb.Verify.KeyBytes

/-!
# The payloads of numbers and dates

The bit manipulations of the scalar keys as arithmetic on 64-bit words. An ordered number payload
is the position of the number in the total order, with both zeros at the middle of the range
(`toNat_numberBits_ordered`), and the payload of a date is its distance from the least `i64`
(`flipSign_beBytes`). Comparing payloads is comparing keys (`compare_numberBits`, `compare_date`).
-/

namespace Moli.IndexedDb

open Lib.BigEndian Lib.TopBit

/-! ## Words -/

theorem toNat_lt_words (x : UInt64) : x.toNat < 2 ^ (63 + 1) := x.toNat_lt

theorem and_signBit_eq_zero_iff (x : UInt64) :
    x &&& 0x8000000000000000 = 0 ↔ x.toNat < 2 ^ 63 := by
  rw [← UInt64.toNat_inj]
  exact and_top_eq_zero_iff (toNat_lt_words x)

theorem toNat_xor_signBit (x : UInt64) : (x ^^^ 0x8000000000000000).toNat =
    if x.toNat < 2 ^ 63 then x.toNat + 2 ^ 63 else x.toNat - 2 ^ 63 := by
  exact xor_top (toNat_lt_words x)

theorem toNat_and_magnitude (x : UInt64) :
    (x &&& 0x7fffffffffffffff).toNat = x.toNat % 2 ^ 63 := by
  exact Nat.and_two_pow_sub_one_eq_mod x.toNat 63

theorem toInt_eq (x : Int64) : x.toInt =
    if x.toUInt64.toNat < 2 ^ 63 then (x.toUInt64.toNat : Int) else x.toUInt64.toNat - 2 ^ 64 := by
  have h : x.toInt = if 2 * x.toUInt64.toNat < 2 ^ 64 then (x.toUInt64.toNat : Int)
      else x.toUInt64.toNat - (2 ^ 64 : Nat) := BitVec.toInt_eq_toNat_cond x.toBitVec
  rw [h]
  split <;> split <;> omega

/-! ## Numbers -/

namespace F64

theorem isZero_iff (x : F64) : x.isZero = true ↔ x.bits.toNat = 0 ∨ x.bits.toNat = 2 ^ 63 := by
  have h := toNat_lt_words x.bits
  rw [isZero, beq_iff_eq, ← UInt64.toNat_inj, toNat_and_magnitude]
  simp only [UInt64.toNat_zero]
  omega

/-- The integer behind `total_cmp`: negative patterns count down from `-1`. -/
theorem toInt_totalKey (x : F64) : x.totalKey.toInt =
    if x.bits.toNat < 2 ^ 63 then (x.bits.toNat : Int) else 2 ^ 63 - 1 - x.bits.toNat := by
  have hlt := toNat_lt_words x.bits
  rw [totalKey, toInt_eq]
  by_cases h : x.bits.toNat < 2 ^ 63
  · simp only [(and_signBit_eq_zero_iff x.bits).2 h, ↓reduceIte, h, UInt64.toUInt64_toInt64]
  · have hbits : (x.bits ^^^ 0x7fffffffffffffff).toNat = 3 * 2 ^ 63 - 1 - x.bits.toNat := by
      exact xor_low hlt (Nat.not_lt.1 h)
    simp only [mt (and_signBit_eq_zero_iff x.bits).1 h, ↓reduceIte, UInt64.toUInt64_toInt64]
    omega

/-- The zeros are next to each other in the total order and nothing else is there. -/
theorem isZero_iff_totalKey (x : F64) :
    x.isZero = true ↔ -1 ≤ x.totalKey.toInt ∧ x.totalKey.toInt ≤ 0 := by
  rw [isZero_iff, toInt_totalKey]
  split <;> omega

end F64

theorem KeyNumber.eq_iff (a b : KeyNumber) :
    a.eq b = true ↔ a.bits = b.bits ∨ a.value.isZero = true ∧ b.value.isZero = true := by
  simp [KeyNumber.eq, F64.eq, value, a.not_nan, b.not_nan]

namespace KeyCodec

/-- The position of a number in the order, both zeros at the same place. -/
theorem toNat_numberBits_ordered (x : F64) : ((numberBits x .ordered).toNat : Int) =
    if x.isZero then 2 ^ 63 else x.totalKey.toInt + 2 ^ 63 := by
  have hlt := toNat_lt_words x.bits
  rw [numberBits, x.toInt_totalKey]
  simp only [signBit, and_signBit_eq_zero_iff]
  cases h : x.isZero with
  | true =>
    simp only [↓reduceIte]
    decide
  | false =>
    simp only [Bool.false_eq_true, ↓reduceIte]
    split
    · next hpos =>
      rw [toNat_xor_signBit, if_pos hpos]
      omega
    · rw [UInt64.toNat_not, show UInt64.size = 2 ^ 64 from rfl]
      omega

theorem compare_int64 (x y : Int64) : compare x y = compare x.toInt y.toInt := by
  symm
  cases h : compare x y with
  | lt => exact Std.compare_eq_lt.2 (Int64.lt_iff_toInt_lt.1 (Std.compare_eq_lt.1 h))
  | eq => rw [Std.LawfulEqCmp.eq_of_compare h]; exact Std.ReflCmp.compare_self
  | gt => exact Std.compare_eq_gt.2 (Int64.lt_iff_toInt_lt.1 (Std.compare_eq_gt.1 h))

/-- Integers that are ordered alike compare alike. -/
theorem compare_congr {a b : Nat} {c d : Int} (hlt : a < b ↔ c < d) (hgt : b < a ↔ d < c) :
    compare a b = compare c d := by
  cases h : compare c d with
  | lt => exact Nat.compare_eq_lt.2 (hlt.2 (Std.compare_eq_lt.1 h))
  | gt => exact Nat.compare_eq_gt.2 (hgt.2 (Std.compare_eq_gt.1 h))
  | eq =>
    have hcd : c = d := Std.LawfulEqCmp.eq_of_compare h
    exact Nat.compare_eq_eq.2 (by omega)

/-- Ordered payloads compare as the numbers. -/
theorem compare_numberBits (a b : KeyNumber) :
    compare (numberBits a.value .ordered).toNat (numberBits b.value .ordered).toNat = a.cmp b := by
  have ha := toNat_numberBits_ordered a.value
  have hb := toNat_numberBits_ordered b.value
  have hzero := a.eq_iff b
  rw [KeyNumber.cmp]
  split
  · next heq =>
    rw [Nat.compare_eq_eq, ← Int.ofNat_inj, ha, hb]
    rcases hzero.1 heq with hbits | ⟨hza, hzb⟩
    · rw [KeyNumber.value, KeyNumber.value, hbits]
    · rw [if_pos hza, if_pos hzb]
  · next hne =>
    rw [hzero] at hne
    rw [F64.totalCmp, compare_int64]
    have hza := a.value.isZero_iff_totalKey
    have hzb := b.value.isZero_iff_totalKey
    -- A zero that meets a number other than zero stands for `0` or `-1`, on the same side of it.
    cases h : a.value.isZero <;> cases h' : b.value.isZero
    · simp only [h, h', Bool.false_eq_true, if_false] at ha hb
      apply compare_congr <;> omega
    · simp only [h, h', Bool.false_eq_true, if_false, true_iff, false_iff] at ha hb hza hzb
      apply compare_congr <;> omega
    · simp only [h, h', Bool.false_eq_true, if_false, true_iff, false_iff] at ha hb hza hzb
      apply compare_congr <;> omega
    · exact absurd (.inr ⟨h, h'⟩) hne

/-! ## Dates -/

/-- Flipping the leading sign bit adds half of the range. -/
theorem flipSign_beBytes {x : Nat} (hx : x < 2 ^ 64) :
    flipSign (beBytes 8 x) = beBytes 8 ((x + 2 ^ 63) % 2 ^ 64) := by
  have hlead : UInt8.ofNat (x / 256 ^ 7) ^^^ 0x80 =
      UInt8.ofNat ((x + 2 ^ 63) % 2 ^ 64 / 256 ^ 7) := by
    have hx7 : x / 256 ^ 7 < 2 ^ (7 + 1) := by omega
    rw [← UInt8.toNat_inj, UInt8.toNat_xor, UInt8.toNat_ofNat', Nat.mod_eq_of_lt hx7,
      UInt8.toNat_ofNat', show (0x80 : UInt8).toNat = 2 ^ 7 from rfl, xor_top hx7]
    split <;> omega
  have hrest : (x + 2 ^ 63) % 2 ^ 64 % 256 ^ 7 = x % 256 ^ 7 := by omega
  rw [beBytes.eq_2, flipSign, hlead, beBytes.eq_2 ((x + 2 ^ 63) % 2 ^ 64) 7, hrest]

theorem toNat_date (x : Int64) : (((x.toUInt64.toNat + 2 ^ 63) % 2 ^ 64 : Nat) : Int) =
    x.toInt + 2 ^ 63 := by
  have hlt := toNat_lt_words x.toUInt64
  rw [toInt_eq]
  split <;> omega

/-- Date payloads compare as the dates. -/
theorem compare_date (x y : Int64) :
    compare ((x.toUInt64.toNat + 2 ^ 63) % 2 ^ 64) ((y.toUInt64.toNat + 2 ^ 63) % 2 ^ 64) =
      compare x y := by
  have hx := toNat_date x
  have hy := toNat_date y
  rw [compare_int64]
  apply compare_congr <;> omega

end KeyCodec

end Moli.IndexedDb
