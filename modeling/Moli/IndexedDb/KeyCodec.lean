import Moli.Lib.Endian
import Moli.IndexedDb.Key

/-!
# The version 1 binary key format

The encoder and the decoder of `key_codec.rs`. `Encoding.ordered` produces the bytes that define
identity and order of a key, `Encoding.value` the bytes that keep the number bits, including the
sign of zero. The decoder's cursor is the list of the bytes that are still unread; a failed memory
reservation is not modelled. `Decoder.key` and its array loop recurse on a fuel argument, and
`Decoder.isSome_key` shows that `decode` supplies enough of it.
-/

namespace Moli.IndexedDb

open Lib.BigEndian

/-- The two errors the key codec reports. -/
inductive IndexedDbError where
  | data (message : String)
  | corruption (message : String)
deriving DecidableEq

namespace KeyCodec

def number : UInt8 := 0x10
def date : UInt8 := 0x20
def string : UInt8 := 0x30
def binary : UInt8 := 0x40
def array : UInt8 := 0x50
def signBit : UInt64 := 0x8000000000000000
def maxDate : Int := 8640000000000000

inductive Encoding where
  | ordered
  | value
deriving DecidableEq

/-- The range check on the milliseconds of a date key. -/
def dateInRange (milliseconds : Int64) : Bool :=
  -maxDate ≤ milliseconds.toInt && milliseconds.toInt ≤ maxDate

/-- `bytes[0] ^= 0x80`. -/
def flipSign : List UInt8 → List UInt8
  | [] => []
  | b :: bs => (b ^^^ 0x80) :: bs

/-! ## Encoding -/

def append (output bytes : List UInt8) : List UInt8 := output ++ bytes

def escaped (output : List UInt8) (byte : UInt8) : List UInt8 :=
  if byte = 0 then append output [0, 0xff] else append output [byte]

/-- The payload of a number: its bits, or the bits whose unsigned order is the numeric order. -/
def numberBits (value : F64) : Encoding → UInt64
  | .value => value.bits
  | .ordered =>
    let bits := if value.isZero then 0 else value.bits
    if bits &&& signBit = 0 then bits ^^^ signBit else ~~~bits

def encodeScalar (key : Key) (encoding : Encoding) (output : List UInt8) :
    Except IndexedDbError (List UInt8) :=
  match key with
  | .number n =>
    let output := append output [number]
    .ok (append output (beBytes 8 (numberBits n.value encoding).toNat))
  | .date milliseconds =>
    if dateInRange milliseconds then
      let output := append output [date]
      .ok (append output (flipSign (beBytes 8 milliseconds.toUInt64.toNat)))
    else .error (.data "invalid IndexedDB Date key")
  | .string units =>
    let output := append output [string]
    let output :=
      units.foldl (fun output unit => (beBytes 2 unit.toNat).foldl escaped output) output
    .ok (append output [0, 0])
  | .binary bytes =>
    let output := append output [binary]
    let output := bytes.foldl escaped output
    .ok (append output [0, 0])
  -- Arrays use the recursive encoder; this branch is never taken.
  | .array _ => .ok output

mutual

def encodeInto (encoding : Encoding) : Key → List UInt8 → Except IndexedDbError (List UInt8)
  | .array keys, output => do
    let output ← encodeAll encoding keys (append output [array])
    .ok (append output [0])
  | .number n, output => encodeScalar (.number n) encoding output
  | .date milliseconds, output => encodeScalar (.date milliseconds) encoding output
  | .string units, output => encodeScalar (.string units) encoding output
  | .binary bytes, output => encodeScalar (.binary bytes) encoding output

/-- The loop over the elements of an array. -/
def encodeAll (encoding : Encoding) : List Key → List UInt8 → Except IndexedDbError (List UInt8)
  | [], output => .ok output
  | key :: keys, output => do
    let output ← encodeInto encoding key output
    encodeAll encoding keys output

end

def encode (key : Key) (encoding : Encoding) : Except IndexedDbError (List UInt8) :=
  match key.validateDepth with
  | .error message => .error (.data message)
  | .ok () => encodeInto encoding key []

/-! ## Decoding -/

def corruption (message : String) : IndexedDbError :=
  .corruption ("invalid IndexedDB binary key: " ++ message)

namespace Decoder

def byte : List UInt8 → Except IndexedDbError (UInt8 × List UInt8)
  | [] => .error (corruption "truncated input")
  | b :: rest => .ok (b, rest)

def scalar (input : List UInt8) : Except IndexedDbError (List UInt8 × List UInt8) :=
  if input.length < 8 then .error (corruption "truncated scalar")
  else .ok (input.take 8, input.drop 8)

/-- The escaped bytes up to the terminator `00 00`, appended to `output`. -/
def variableBytes : List UInt8 → List UInt8 → Except IndexedDbError (List UInt8 × List UInt8)
  | [], _ => .error (corruption "truncated input")
  | b :: rest, output =>
    if b ≠ 0 then variableBytes rest (output ++ [b])
    else
      match rest with
      | [] => .error (corruption "truncated input")
      | c :: rest =>
        if c = 0 then .ok (output, rest)
        else if c = 0xff then variableBytes rest (output ++ [0])
        else .error (corruption "invalid variable-length escape")

/-- `chunks_exact(2)` read as big-endian code units. -/
def codeUnits : List UInt8 → List UInt16
  | a :: b :: rest => UInt16.ofNat (ofBeBytes [a, b]) :: codeUnits rest
  | _ => []

/-- The number bits a payload stands for. -/
def payloadBits (payload : UInt64) : Encoding → UInt64
  | .value => payload
  | .ordered => if payload &&& signBit ≠ 0 then payload ^^^ signBit else ~~~payload

def numberKey (encoding : Encoding) (input : List UInt8) :
    Except IndexedDbError (Key × List UInt8) :=
  match scalar input with
  | .error e => .error e
  | .ok (bytes, rest) =>
    let bits := payloadBits (UInt64.ofNat (ofBeBytes bytes)) encoding
    let value : F64 := ⟨bits⟩
    if encoding = .ordered ∧ value.isZero ∧ bits ≠ 0 then .error (corruption "noncanonical zero")
    else
      match Key.ofNumber value with
      | none => .error (corruption "NaN")
      | some key => .ok (key, rest)

def dateKey (input : List UInt8) : Except IndexedDbError (Key × List UInt8) :=
  match scalar input with
  | .error e => .error e
  | .ok (bytes, rest) =>
    let value := (UInt64.ofNat (ofBeBytes (flipSign bytes))).toInt64
    if dateInRange value then .ok (.date value, rest)
    else .error (corruption "Date outside the supported range")

def stringKey (input : List UInt8) : Except IndexedDbError (Key × List UInt8) :=
  match variableBytes input [] with
  | .error e => .error e
  | .ok (bytes, rest) =>
    if bytes.length % 2 ≠ 0 then .error (corruption "incomplete UTF-16 code unit")
    else .ok (.string (codeUnits bytes), rest)

def binaryKey (input : List UInt8) : Except IndexedDbError (Key × List UInt8) :=
  match variableBytes input [] with
  | .error e => .error e
  | .ok (bytes, rest) => .ok (.binary bytes, rest)

/-- A key that is not an array, its tag already read. -/
def scalarKey (tag : UInt8) (encoding : Encoding) (input : List UInt8) :
    Except IndexedDbError (Key × List UInt8) :=
  if tag = number then numberKey encoding input
  else if tag = date then dateKey input
  else if tag = string then stringKey input
  else if tag = binary then binaryKey input
  else .error (corruption "unknown type tag")

mutual

/-- One key; `none` if the fuel does not suffice. -/
def key (encoding : Encoding) :
    Nat → Nat → List UInt8 → Option (Except IndexedDbError (Key × List UInt8))
  | 0, _, _ => none
  | fuel + 1, depth, input =>
    match byte input with
    | .error e => some (.error e)
    | .ok (tag, rest) =>
      if tag ≠ array then some (scalarKey tag encoding rest)
      else if maxKeyDepth ≤ depth then some (.error (corruption "maximum array nesting exceeded"))
      else arrayKeys encoding fuel depth rest []

/-- The loop that collects the elements of an array up to its terminator. -/
def arrayKeys (encoding : Encoding) :
    Nat → Nat → List UInt8 → List Key → Option (Except IndexedDbError (Key × List UInt8))
  | 0, _, _, _ => none
  | _ + 1, _, [], _ => some (.error (corruption "unterminated array"))
  | fuel + 1, depth, b :: rest, keys =>
    if b = 0 then some (.ok (.array keys, rest))
    else
      match key encoding fuel (depth + 1) (b :: rest) with
      | none => none
      | some (.error e) => some (.error e)
      | some (.ok (key, rest)) => arrayKeys encoding fuel depth rest (keys ++ [key])

end

/-! ### Enough fuel -/

variable {input rest : List UInt8} {encoding : Encoding}

theorem scalar_length {bytes : List UInt8} (h : scalar input = .ok (bytes, rest)) :
    rest.length ≤ input.length := by
  unfold scalar at h
  split at h
  · cases h
  · cases h
    simp

theorem variableBytes_length {output bytes : List UInt8}
    (h : variableBytes input output = .ok (bytes, rest)) : rest.length ≤ input.length := by
  fun_induction variableBytes input output with
  | case1 | case3 | case6 => cases h
  | case2 output b rest' hb ih =>
    have := ih h
    simp only [List.length_cons]
    omega
  | case4 output c rest' =>
    cases h
    simp only [List.length_cons]
    omega
  | case5 output c rest' hc hff ih =>
    have := ih h
    simp only [List.length_cons]
    omega

theorem scalarKey_length {tag : UInt8} {k : Key}
    (h : scalarKey tag encoding input = .ok (k, rest)) :
    rest.length ≤ input.length := by
  simp only [scalarKey, numberKey, dateKey, stringKey, binaryKey] at h
  split at h
  · split at h
    · cases h
    · next hs =>
      split at h
      · cases h
      · split at h <;> cases h
        exact scalar_length hs
  · split at h
    · split at h
      · cases h
      · next hs =>
        split at h <;> cases h
        exact scalar_length hs
    · split at h
      · split at h
        · cases h
        · next hs =>
          split at h <;> cases h
          exact variableBytes_length hs
      · split at h
        · split at h <;> cases h
          next hs => exact variableBytes_length hs
        · cases h

mutual

theorem key_length : ∀ {fuel depth : Nat} {input rest : List UInt8} {k : Key},
    key encoding fuel depth input = some (.ok (k, rest)) → rest.length < input.length
  | 0, _, _, _, _, h => by simp [key] at h
  | fuel + 1, depth, [], rest, k, h => by simp [key, byte] at h
  | fuel + 1, depth, b :: input, rest, k, h => by
    simp only [key, byte] at h
    simp only [List.length_cons]
    split at h
    · have := scalarKey_length (Option.some.inj h)
      omega
    · split at h
      · cases h
      · have := arrayKeys_length h
        omega

theorem arrayKeys_length :
    ∀ {fuel depth : Nat} {input rest : List UInt8} {keys : List Key} {k : Key},
    arrayKeys encoding fuel depth input keys = some (.ok (k, rest)) → rest.length < input.length
  | 0, _, _, _, _, _, h => by simp [arrayKeys] at h
  | fuel + 1, depth, [], rest, keys, k, h => by simp [arrayKeys] at h
  | fuel + 1, depth, b :: input, rest, keys, k, h => by
    simp only [arrayKeys] at h
    split at h
    · cases h
      simp
    · split at h
      · cases h
      · cases h
      · next hk =>
        have h1 := key_length hk
        have h2 := arrayKeys_length h
        omega

end

mutual

/-- Two units of fuel for each unread byte are enough. -/
theorem isSome_key : ∀ {fuel depth : Nat} {input : List UInt8},
    0 < fuel → 2 * input.length ≤ fuel → (key encoding fuel depth input).isSome
  | 0, _, _, h, _ => absurd h (Nat.lt_irrefl 0)
  | fuel + 1, depth, [], _, _ => by simp [key, byte]
  | fuel + 1, depth, b :: input, _, h => by
    simp only [List.length_cons] at h
    simp only [key, byte]
    split
    · rfl
    · split
      · rfl
      · exact isSome_arrayKeys (by omega)

theorem isSome_arrayKeys :
    ∀ {fuel depth : Nat} {input : List UInt8} {keys : List Key},
    2 * input.length < fuel → (arrayKeys encoding fuel depth input keys).isSome
  | 0, _, _, _, h => absurd h (Nat.not_lt_zero _)
  | fuel + 1, depth, [], keys, _ => by simp [arrayKeys]
  | fuel + 1, depth, b :: input, keys, h => by
    simp only [List.length_cons] at h
    have hkey : (key encoding fuel (depth + 1) (b :: input)).isSome :=
      isSome_key (by omega) (by simp only [List.length_cons]; omega)
    simp only [arrayKeys]
    split
    · rfl
    · split
      · next hnone => simp [hnone] at hkey
      · rfl
      · next hok =>
        have hlen := key_length hok
        simp only [List.length_cons] at hlen
        exact isSome_arrayKeys (by omega)

end

end Decoder

def decode (bytes : List UInt8) (encoding : Encoding) : Except IndexedDbError Key :=
  match (Decoder.key encoding (2 * bytes.length + 1) 0 bytes).get
    (Decoder.isSome_key (Nat.succ_pos _) (Nat.le_succ _)) with
  | .error e => .error e
  | .ok (key, rest) => if rest ≠ [] then .error (corruption "trailing bytes") else .ok key

end KeyCodec

namespace Key

open KeyCodec

/-- The comparison bytes of a key. -/
def encodeOrdered (key : Key) : Except IndexedDbError (List UInt8) := encode key .ordered

def decodeOrdered (bytes : List UInt8) : Except IndexedDbError Key := decode bytes .ordered

/-- The lossless bytes of a key. -/
def encodeValue (key : Key) : Except IndexedDbError (List UInt8) := encode key .value

def decodeValue (bytes : List UInt8) : Except IndexedDbError Key := decode bytes .value

mutual

/-- Every date in the key is one the format can hold. -/
def datesInRange : Key → Bool
  | .date milliseconds => dateInRange milliseconds
  | .array keys => datesInRangeAll keys
  | .number _ => true
  | .string _ => true
  | .binary _ => true

def datesInRangeAll : List Key → Bool
  | [] => true
  | key :: keys => datesInRange key && datesInRangeAll keys

end

end Key

end Moli.IndexedDb
