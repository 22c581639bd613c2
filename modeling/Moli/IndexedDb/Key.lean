import Mathlib.Algebra.Order.Ring.Int
import Mathlib.Data.List.Basic

/-!
# IndexedDB keys

The key type of the storage layer (`key.rs`): numbers by their bit pattern, dates, UTF-16 strings,
byte strings and nested arrays, with the comparison and the nesting check the backend uses.
An `f64` is its 64-bit pattern (`F64`); `F64.eq` and `F64.totalCmp` are the comparisons `==` and
`total_cmp` of the language on that pattern.
-/

namespace Moli.IndexedDb

/-! ## Floating point numbers by their bits -/

/-- An `f64`, given by `to_bits`. -/
structure F64 where
  bits : UInt64

namespace F64

/-- All exponent bits set and a mantissa that is not zero. -/
def isNan (x : F64) : Bool := 0x7ff0000000000000 < x.bits &&& 0x7fffffffffffffff

/-- Either of the two zeros, the comparison `x == 0.0`. -/
def isZero (x : F64) : Bool := x.bits &&& 0x7fffffffffffffff == 0

/-- The comparison `==`: no NaN equals anything, and the two zeros are equal. -/
def eq (x y : F64) : Bool :=
  !x.isNan && !y.isNan && (x.bits == y.bits || (x.isZero && y.isZero))

/-- The signed integer `total_cmp` compares: negative patterns have their magnitude flipped. -/
def totalKey (x : F64) : Int64 :=
  if x.bits &&& 0x8000000000000000 = 0 then x.bits.toInt64
  else (x.bits ^^^ 0x7fffffffffffffff).toInt64

/-- The IEEE 754 total order. -/
def totalCmp (x y : F64) : Ordering := compare x.totalKey y.totalKey

end F64

/-! ## Keys -/

/-- Maximum array nesting accepted by key conversion and persistent storage. -/
def maxKeyDepth : Nat := 256

def keyDepthError : String := "IndexedDB array key exceeds the maximum nesting depth"

/-- The bit pattern of a number that is not NaN. -/
structure KeyNumber where
  bits : UInt64
  not_nan : (F64.mk bits).isNan = false

namespace KeyNumber

def new (value : F64) : Option KeyNumber :=
  if h : value.isNan = false then some ⟨value.bits, h⟩ else none

def value (n : KeyNumber) : F64 := ⟨n.bits⟩

def eq (a b : KeyNumber) : Bool := a.value.eq b.value

def cmp (a b : KeyNumber) : Ordering :=
  if a.eq b then .eq else a.value.totalCmp b.value

end KeyNumber

/-- The variants in the order of IndexedDB key types. -/
inductive Key where
  | number (number : KeyNumber)
  | date (milliseconds : Int64)
  | string (units : List UInt16)
  | binary (bytes : List UInt8)
  | array (keys : List Key)

namespace Key

def ofNumber (value : F64) : Option Key := (KeyNumber.new value).map .number

/-- The position of a variant, which the derived order compares first. -/
def discriminant : Key → Nat
  | .number _ => 0
  | .date _ => 1
  | .string _ => 2
  | .binary _ => 3
  | .array _ => 4

mutual

/-- The derived equality: structural, with the equality of `KeyNumber` at the numbers. -/
def eq : Key → Key → Bool
  | .number a, .number b => a.eq b
  | .date a, .date b => a == b
  | .string a, .string b => a == b
  | .binary a, .binary b => a == b
  | .array a, .array b => eqList a b
  | _, _ => false

def eqList : List Key → List Key → Bool
  | [], [] => true
  | a :: as, b :: bs => eq a b && eqList as bs
  | _, _ => false

end

mutual

/-- The derived order: the variant first, then the contents, sequences lexicographically. -/
def cmp : Key → Key → Ordering
  | .number a, .number b => a.cmp b
  | .date a, .date b => compare a b
  | .string a, .string b => List.compareLex compare a b
  | .binary a, .binary b => List.compareLex compare a b
  | .array a, .array b => cmpList a b
  | a, b => compare a.discriminant b.discriminant

def cmpList : List Key → List Key → Ordering
  | [], [] => .eq
  | [], _ :: _ => .lt
  | _ :: _, [] => .gt
  | a :: as, b :: bs => (cmp a b).then (cmpList as bs)

end

mutual

def validateDepthAt : Key → Nat → Except String Unit
  | .array keys, depth =>
    if maxKeyDepth ≤ depth then .error keyDepthError else validateDepthAll keys (depth + 1)
  | _, _ => .ok ()

/-- The loop over the elements of an array. -/
def validateDepthAll : List Key → Nat → Except String Unit
  | [], _ => .ok ()
  | key :: keys, depth => do
    validateDepthAt key depth
    validateDepthAll keys depth

end

/-- Reject nesting that would exceed the supported native key depth. -/
def validateDepth (key : Key) : Except String Unit := key.validateDepthAt 0

/-! ## Nesting depth and dates -/

mutual

/-- The number of arrays around the innermost element of a key. -/
def arrayDepth : Key → Nat
  | .array keys => arrayDepthAll keys + 1
  | _ => 0

def arrayDepthAll : List Key → Nat
  | [] => 0
  | key :: keys => max (arrayDepth key) (arrayDepthAll keys)

end

mutual

/-- The check accepts a key exactly if its arrays fit below the limit. -/
theorem validateDepthAt_iff : ∀ (key : Key) (depth : Nat), depth ≤ maxKeyDepth →
    (key.validateDepthAt depth = .ok () ↔ depth + key.arrayDepth ≤ maxKeyDepth)
  | .number _, depth, h => by simp [validateDepthAt, arrayDepth, h]
  | .date _, depth, h => by simp [validateDepthAt, arrayDepth, h]
  | .string _, depth, h => by simp [validateDepthAt, arrayDepth, h]
  | .binary _, depth, h => by simp [validateDepthAt, arrayDepth, h]
  | .array keys, depth, h => by
    rw [validateDepthAt, arrayDepth]
    by_cases hd : maxKeyDepth ≤ depth
    · simp only [hd, ↓reduceIte, reduceCtorEq, false_iff]
      omega
    · rw [if_neg hd, validateDepthAll_iff keys (depth + 1) (by omega)]
      omega

theorem validateDepthAll_iff : ∀ (keys : List Key) (depth : Nat), depth ≤ maxKeyDepth →
    (validateDepthAll keys depth = .ok () ↔ depth + arrayDepthAll keys ≤ maxKeyDepth)
  | [], depth, h => by simp [validateDepthAll, arrayDepthAll, h]
  | key :: keys, depth, h => by
    have hkey := validateDepthAt_iff key depth h
    have hkeys := validateDepthAll_iff keys depth h
    rw [validateDepthAll, arrayDepthAll]
    cases hv : key.validateDepthAt depth with
    | error e =>
      rw [hv] at hkey
      simp only [reduceCtorEq, false_iff] at hkey
      simp only [bind, Except.bind, reduceCtorEq, false_iff]
      omega
    | ok u =>
      rw [hv] at hkey
      simp only [bind, Except.bind]
      rw [hkeys]
      simp only [true_iff] at hkey
      omega

end

theorem validateDepth_iff (key : Key) :
    key.validateDepth = .ok () ↔ key.arrayDepth ≤ maxKeyDepth := by
  simpa [validateDepth] using validateDepthAt_iff key 0 (Nat.zero_le _)

end Key

end Moli.IndexedDb
