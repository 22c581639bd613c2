import Mathlib.Algebra.Order.Ring.Int
import Moli.Lib.OrderCode

/-!
# Numbers as bytes

`beBytes k x` is the width-`k` big-endian representation of `x`, `ofBeBytes` reads one back. Within
the width the two are inverse, and the bytes of numbers of one width compare as the numbers do.
`leBytes` and `leValue` are their little-endian counterparts, and `varintBytes` takes as many groups
of seven bits as a number needs. Testing and flipping the top bit of a word, and flipping the bits
below it, are read off the quotient and the remainder modulo the top bit.
-/

namespace Lib.BigEndian

open Lib.OrderCode

/-- The `k` big-endian bytes of `x`; only `x % 256 ^ k` is represented. -/
def beBytes : Nat → Nat → List UInt8
  | 0, _ => []
  | k + 1, x => UInt8.ofNat (x / 256 ^ k) :: beBytes k (x % 256 ^ k)

/-- The number a big-endian byte string stands for. -/
def ofBeBytes : List UInt8 → Nat
  | [] => 0
  | b :: bs => b.toNat * 256 ^ bs.length + ofBeBytes bs

@[simp] theorem length_beBytes (k x : Nat) : (beBytes k x).length = k := by
  induction k generalizing x with
  | zero => rfl
  | succ k ih => simp [beBytes, ih]

theorem ofBeBytes_lt (bs : List UInt8) : ofBeBytes bs < 256 ^ bs.length := by
  induction bs with
  | nil => simp [ofBeBytes]
  | cons b bs ih =>
    have hb : b.toNat + 1 ≤ 256 := b.toNat_lt
    have hmul : (b.toNat + 1) * 256 ^ bs.length ≤ 256 * 256 ^ bs.length :=
      Nat.mul_le_mul_right _ hb
    rw [ofBeBytes, List.length_cons]
    rw [Nat.add_mul] at hmul
    omega

private theorem toNat_ofNat_div {k x : Nat} (hx : x < 256 ^ (k + 1)) :
    (UInt8.ofNat (x / 256 ^ k)).toNat = x / 256 ^ k := by
  have hdiv : x / 256 ^ k < 256 := by
    rw [Nat.div_lt_iff_lt_mul (Nat.pow_pos (by decide)), ← Nat.pow_succ']
    exact hx
  exact Nat.mod_eq_of_lt hdiv

/-- Reading back the bytes of a number that fits gives the number. -/
theorem ofBeBytes_beBytes {k x : Nat} (hx : x < 256 ^ k) : ofBeBytes (beBytes k x) = x := by
  induction k generalizing x with
  | zero => simp at hx; simp [beBytes, ofBeBytes, hx]
  | succ k ih =>
    rw [beBytes, ofBeBytes, length_beBytes, toNat_ofNat_div hx,
      ih (Nat.mod_lt _ (Nat.pow_pos (by decide))), Nat.mul_comm]
    exact Nat.div_add_mod x (256 ^ k)

/-- Every byte string is the representation of the number it stands for. -/
theorem beBytes_ofBeBytes (bs : List UInt8) : beBytes bs.length (ofBeBytes bs) = bs := by
  induction bs with
  | nil => rfl
  | cons b bs ih =>
    have hlt := ofBeBytes_lt bs
    have hdiv : (b.toNat * 256 ^ bs.length + ofBeBytes bs) / 256 ^ bs.length = b.toNat := by
      rw [Nat.mul_comm, Nat.mul_add_div (Nat.pow_pos (by decide)), Nat.div_eq_of_lt hlt,
        Nat.add_zero]
    have hmod : (b.toNat * 256 ^ bs.length + ofBeBytes bs) % 256 ^ bs.length = ofBeBytes bs := by
      rw [Nat.mul_comm, Nat.mul_add_mod, Nat.mod_eq_of_lt hlt]
    rw [List.length_cons, ofBeBytes, beBytes, hdiv, hmod, ih, UInt8.ofNat_toNat]

theorem compare_toNat (a b : UInt8) : compare a.toNat b.toNat = compare a b := by
  cases h : compare a b with
  | lt => exact Nat.compare_eq_lt.2 (UInt8.lt_iff_toNat_lt.1 (Std.compare_eq_lt.1 h))
  | eq => rw [Std.LawfulEqCmp.eq_of_compare h]; exact Nat.compare_eq_eq.2 rfl
  | gt => exact Nat.compare_eq_gt.2 (UInt8.lt_iff_toNat_lt.1 (Std.compare_eq_gt.1 h))

/-- Numbers compare by their quotients first and by their remainders second. -/
theorem compare_div_then_mod (n x y : Nat) (hn : 0 < n) :
    (compare (x / n) (y / n)).then (compare (x % n) (y % n)) = compare x y := by
  have hx := Nat.div_add_mod x n
  have hy := Nat.div_add_mod y n
  have hmx := Nat.mod_lt x hn
  have hmy := Nat.mod_lt y hn
  rcases Nat.lt_trichotomy (x / n) (y / n) with h | h | h
  · have hmul : n * (x / n + 1) ≤ n * (y / n) := Nat.mul_le_mul_left n h
    rw [Nat.mul_add] at hmul
    rw [Nat.compare_eq_lt.2 h, Nat.compare_eq_lt.2 (show x < y by omega)]
    rfl
  · rw [Nat.compare_eq_eq.2 h]
    rw [h] at hx
    rcases Nat.lt_trichotomy (x % n) (y % n) with h' | h' | h'
    · rw [Nat.compare_eq_lt.2 h', Nat.compare_eq_lt.2 (show x < y by omega)]; rfl
    · rw [Nat.compare_eq_eq.2 h', Nat.compare_eq_eq.2 (show x = y by omega)]; rfl
    · rw [Nat.compare_eq_gt.2 h', Nat.compare_eq_gt.2 (show y < x by omega)]; rfl
  · have hmul : n * (y / n + 1) ≤ n * (x / n) := Nat.mul_le_mul_left n h
    rw [Nat.mul_add] at hmul
    rw [Nat.compare_eq_gt.2 h, Nat.compare_eq_gt.2 (show y < x by omega)]
    rfl

/-- Numbers of one width compare as their bytes. -/
theorem carriesAt_beBytes {k x y : Nat} (hx : x < 256 ^ k) (hy : y < 256 ^ k) :
    CarriesAt compare (beBytes k) x y := by
  induction k generalizing x y with
  | zero =>
    intro s t
    simp only [Nat.pow_zero, Nat.lt_one_iff] at hx hy
    subst hx hy
    rfl
  | succ k ih =>
    intro s t
    have hpos : 0 < 256 ^ k := Nat.pow_pos (by decide)
    have hrec := ih (Nat.mod_lt x hpos) (Nat.mod_lt y hpos) s t
    have hlead : compare (UInt8.ofNat (x / 256 ^ k)) (UInt8.ofNat (y / 256 ^ k)) =
        compare (x / 256 ^ k) (y / 256 ^ k) := by
      rw [← compare_toNat, toNat_ofNat_div hx, toNat_ofNat_div hy]
    rw [beBytes, beBytes, List.cons_append, List.cons_append, lexCmp_cons_cons, hrec, hlead,
      ← Ordering.then_assoc, compare_div_then_mod _ _ _ hpos]

end Lib.BigEndian

namespace Lib

def leValue : List UInt8 → Nat
  | [] => 0
  | byte :: bytes => byte.toNat + 256 * leValue bytes

def leBytes : Nat → Nat → List UInt8
  | 0, _ => []
  | k + 1, n => UInt8.ofNat n :: leBytes k (n / 256)

@[simp] theorem length_leBytes (k n : Nat) : (leBytes k n).length = k := by
  induction k generalizing n with
  | zero => rfl
  | succ k ih => rw [leBytes, List.length_cons, ih]

theorem leValue_leBytes {k n : Nat} (h : n < 256 ^ k) : leValue (leBytes k n) = n := by
  induction k generalizing n with
  | zero =>
    obtain rfl : n = 0 := by simpa using h
    rfl
  | succ k ih =>
    have hrest : n / 256 < 256 ^ k := by
      rw [Nat.div_lt_iff_lt_mul (by decide)]
      simpa [pow_succ] using h
    rw [leBytes, leValue, ih hrest, UInt8.toNat_ofNat']
    omega

theorem leBytes_leValue (bytes : List UInt8) : leBytes bytes.length (leValue bytes) = bytes := by
  induction bytes with
  | nil => rfl
  | cons byte bytes ih =>
    have hbyte : UInt8.ofNat (byte.toNat + 256 * leValue bytes) = byte := by
      apply UInt8.toNat_inj.1
      have := byte.toNat_lt
      rw [UInt8.toNat_ofNat']
      omega
    have hrest : (byte.toNat + 256 * leValue bytes) / 256 = leValue bytes := by
      have := byte.toNat_lt
      omega
    rw [List.length_cons, leBytes, leValue, hbyte, hrest, ih]

/-- Every byte but the last has its top bit set. -/
def varintBytes (n : Nat) : List UInt8 :=
  if n < 128 then [UInt8.ofNat n] else UInt8.ofNat (n % 128 + 128) :: varintBytes (n / 128)
termination_by n
decreasing_by omega

theorem varintBytes_of_lt {n : Nat} (h : n < 128) : varintBytes n = [UInt8.ofNat n] := by
  rw [varintBytes, if_pos h]

theorem varintBytes_of_le {n : Nat} (h : 128 ≤ n) :
    varintBytes n = UInt8.ofNat (n % 128 + 128) :: varintBytes (n / 128) := by
  rw [varintBytes, if_neg (by omega)]

end Lib

namespace Lib.TopBit

/-! ## The top bit of a word -/

variable {n x : Nat}

/-- A word is its top bit and the bits below. -/
theorem eq_low_or_high (hx : x < 2 ^ (n + 1)) :
    x / 2 ^ n = 0 ∧ x % 2 ^ n = x ∧ x < 2 ^ n ∨
      x / 2 ^ n = 1 ∧ x % 2 ^ n = x - 2 ^ n ∧ 2 ^ n ≤ x := by
  by_cases h : x < 2 ^ n
  · exact .inl ⟨Nat.div_eq_of_lt h, Nat.mod_eq_of_lt h, h⟩
  · have hle := Nat.not_lt.1 h
    refine .inr ⟨?_, ?_, hle⟩
    · rw [Nat.div_eq_sub_div (Nat.two_pow_pos n) hle, Nat.div_eq_of_lt (by omega)]
    · rw [Nat.mod_eq_sub_mod hle, Nat.mod_eq_of_lt (by omega)]

/-- The top bit is clear exactly in the lower half of the range. -/
theorem and_top_eq_zero_iff (hx : x < 2 ^ (n + 1)) : x &&& 2 ^ n = 0 ↔ x < 2 ^ n := by
  have hpos := Nat.two_pow_pos n
  have heq := Nat.div_add_mod (x &&& 2 ^ n) (2 ^ n)
  rw [Nat.and_div_two_pow, Nat.and_mod_two_pow, Nat.div_self hpos, Nat.mod_self, Nat.and_zero,
    Nat.and_one_is_mod] at heq
  rcases eq_low_or_high hx with ⟨hd, -, hlt⟩ | ⟨hd, -, hge⟩
  · simp only [hd] at heq
    omega
  · simp only [hd] at heq
    omega

/-- Flipping the top bit swaps the two halves of the range. -/
theorem xor_top (hx : x < 2 ^ (n + 1)) :
    x ^^^ 2 ^ n = if x < 2 ^ n then x + 2 ^ n else x - 2 ^ n := by
  have hpos := Nat.two_pow_pos n
  have heq := Nat.div_add_mod (x ^^^ 2 ^ n) (2 ^ n)
  rw [Nat.xor_div_two_pow, Nat.xor_mod_two_pow, Nat.div_self hpos, Nat.mod_self,
    Nat.xor_zero] at heq
  rcases eq_low_or_high hx with ⟨hd, hm, hlt⟩ | ⟨hd, hm, hge⟩
  · simp only [hd, Nat.zero_xor] at heq
    rw [if_pos hlt]
    omega
  · simp only [hd, Nat.xor_self] at heq
    rw [if_neg (by omega)]
    omega

/-- Flipping every bit of a word reverses the range. -/
theorem xor_all (hx : x < 2 ^ n) : x ^^^ (2 ^ n - 1) = 2 ^ n - 1 - x := by
  have hnot := BitVec.toNat_not (x := BitVec.ofNat n x)
  rwa [← BitVec.xor_allOnes, BitVec.toNat_xor, BitVec.toNat_ofNat, Nat.mod_eq_of_lt hx] at hnot

/-- Flipping the bits below a set top bit reverses the upper half of the range. -/
theorem xor_low (hx : x < 2 ^ (n + 1)) (hge : 2 ^ n ≤ x) :
    x ^^^ (2 ^ n - 1) = 3 * 2 ^ n - 1 - x := by
  have hpos := Nat.two_pow_pos n
  have heq := Nat.div_add_mod (x ^^^ (2 ^ n - 1)) (2 ^ n)
  rw [Nat.xor_div_two_pow, Nat.xor_mod_two_pow, Nat.div_eq_of_lt (Nat.sub_one_lt_of_lt hpos),
    Nat.mod_eq_of_lt (Nat.sub_one_lt_of_lt hpos), xor_all (Nat.mod_lt x hpos), Nat.xor_zero] at heq
  rcases eq_low_or_high hx with ⟨-, -, hlt⟩ | ⟨hd, hm, -⟩
  · omega
  · rw [Nat.pow_succ] at hx
    simp only [hd] at heq
    omega

end Lib.TopBit
