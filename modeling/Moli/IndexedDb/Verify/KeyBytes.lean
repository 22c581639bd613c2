import Moli.IndexedDb.KeyCodec

/-!
# The bytes of a key

`bytes encoding key` is the encoding of a key as a concatenation: a tag, then a fixed-width payload,
an escaped byte string closed by `00 00`, or the encodings of the elements closed by `00`. The
encoder succeeds exactly on keys that are not nested too deeply and whose dates are in range, and
then appends these bytes (`encode_ok_iff`).
-/

namespace Moli.IndexedDb.KeyCodec

open Lib.BigEndian Lib.OrderCode

/-- One escaped byte. -/
def escape (b : UInt8) : List UInt8 := if b = 0 then [0, 0xff] else [b]

/-- An escaped byte string with its terminator. -/
def escapedBytes (bs : List UInt8) : List UInt8 := terminated escape [0, 0] bs

/-- The code units of a string as big-endian bytes. -/
def unitBytes (units : List UInt16) : List UInt8 := units.flatMap fun unit => beBytes 2 unit.toNat

mutual

def bytes (encoding : Encoding) : Key → List UInt8
  | .number n => number :: beBytes 8 (numberBits n.value encoding).toNat
  | .date milliseconds => date :: flipSign (beBytes 8 milliseconds.toUInt64.toNat)
  | .string units => string :: escapedBytes (unitBytes units)
  | .binary bs => binary :: escapedBytes bs
  | .array keys => array :: (bytesAll encoding keys ++ [0])

def bytesAll (encoding : Encoding) : List Key → List UInt8
  | [] => []
  | key :: keys => bytes encoding key ++ bytesAll encoding keys

end

theorem escaped_eq (output : List UInt8) (b : UInt8) : escaped output b = output ++ escape b := by
  unfold escaped escape append
  split <;> rfl

theorem foldl_escaped (bs output : List UInt8) :
    bs.foldl escaped output = output ++ bs.flatMap escape := by
  induction bs generalizing output with
  | nil => simp
  | cons b bs ih => rw [List.foldl_cons, ih, escaped_eq, List.flatMap_cons, List.append_assoc]

theorem foldl_units (units : List UInt16) (output : List UInt8) :
    units.foldl (fun output unit => (beBytes 2 unit.toNat).foldl escaped output) output =
      output ++ (unitBytes units).flatMap escape := by
  induction units generalizing output with
  | nil => simp [unitBytes]
  | cons unit units ih =>
    rw [List.foldl_cons, ih, foldl_escaped, List.append_assoc, ← List.flatMap_append]
    rfl

mutual

/-- The encoder appends `bytes` if the dates are in range and fails otherwise. -/
theorem encodeInto_eq (encoding : Encoding) : ∀ (key : Key) (output : List UInt8),
    encodeInto encoding key output =
      if key.datesInRange then .ok (output ++ bytes encoding key)
      else .error (.data "invalid IndexedDB Date key")
  | .number n, output => by
    simp [encodeInto, encodeScalar, append, bytes, Key.datesInRange]
  | .date milliseconds, output => by
    cases h : dateInRange milliseconds <;>
      simp [encodeInto, encodeScalar, append, bytes, Key.datesInRange, h]
  | .string units, output => by
    simp [encodeInto, encodeScalar, append, bytes, Key.datesInRange, foldl_units, escapedBytes,
      terminated]
  | .binary bs, output => by
    simp [encodeInto, encodeScalar, append, bytes, Key.datesInRange, foldl_escaped, escapedBytes,
      terminated]
  | .array keys, output => by
    rw [encodeInto, encodeAll_eq encoding keys, Key.datesInRange]
    cases h : Key.datesInRangeAll keys <;> simp [bytes, append, bind, Except.bind]

theorem encodeAll_eq (encoding : Encoding) : ∀ (keys : List Key) (output : List UInt8),
    encodeAll encoding keys output =
      if Key.datesInRangeAll keys then .ok (output ++ bytesAll encoding keys)
      else .error (.data "invalid IndexedDB Date key")
  | [], output => by simp [encodeAll, bytesAll, Key.datesInRangeAll]
  | key :: keys, output => by
    rw [encodeAll, encodeInto_eq encoding key, Key.datesInRangeAll]
    cases hk : key.datesInRange with
    | false => simp [bind, Except.bind]
    | true =>
      simp only [if_true, bind, Except.bind, encodeAll_eq encoding keys, bytesAll,
        List.append_assoc, Bool.true_and]

end

/-- The encoder succeeds exactly on keys within the depth limit whose dates are in range. -/
theorem encode_ok_iff {key : Key} {encoding : Encoding} {bs : List UInt8} :
    encode key encoding = .ok bs ↔
      key.arrayDepth ≤ maxKeyDepth ∧ key.datesInRange = true ∧ bs = bytes encoding key := by
  rw [← Key.validateDepth_iff]
  unfold encode
  cases hv : key.validateDepth with
  | error message => simp
  | ok u =>
    simp only [encodeInto_eq]
    cases key.datesInRange with
    | false => simp
    | true => simp [eq_comm]

end Moli.IndexedDb.KeyCodec
