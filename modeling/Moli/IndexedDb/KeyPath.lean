import Moli.IndexedDb.KeyCodec

/-!
# Stored key paths

`KeyPath::is_valid` of `key.rs` and the version 1 codec of `key_path_codec.rs`. The decoder's cursor
is the list of the bytes that are still unread; its offset stays far below `2 ^ 64`, and a failed
memory reservation is not modelled.
-/

namespace Moli.IndexedDb

open Lib.BigEndian

inductive KeyPath where
  | string (path : String)
  | sequence (paths : List String)

/-- The tables of `unicode_id_start`. -/
structure UnicodeId where
  isIdStart : Char → Bool
  isIdContinue : Char → Bool

namespace UnicodeId

def identifierIsValid (u : UnicodeId) : List Char → Bool
  | [] => false
  | ch :: chars => (['$', '_'].contains ch || u.isIdStart ch) &&
      chars.all fun ch => ['$', '_', '\u200c', '\u200d'].contains ch || u.isIdContinue ch

def stringKeyPathIsValid (u : UnicodeId) (path : String) : Bool :=
  path.isEmpty || (path.toList.splitOn '.').all u.identifierIsValid

end UnicodeId

namespace KeyPath

def isValid (u : UnicodeId) : KeyPath → Bool
  | .string path => u.stringKeyPathIsValid path
  | .sequence paths => !paths.isEmpty && paths.all u.stringKeyPathIsValid

/-! ## Encoding -/

def asBytes (string : String) : List UInt8 := string.toUTF8.data.toList

def writeString (output : List UInt8) (string : String) : Except IndexedDbError (List UInt8) :=
  if (asBytes string).length < 2 ^ 32 then
    .ok (output ++ beBytes 4 (asBytes string).length ++ asBytes string)
  else .error (.data "key path string too long")

def encodeValue (u : UnicodeId) (path : KeyPath) : Except IndexedDbError (List UInt8) :=
  if !path.isValid u then .error (.data "invalid IndexedDB key path")
  else
    match path with
    | .string path => writeString [0] path
    | .sequence paths =>
      if paths.length < 2 ^ 32 then paths.foldlM writeString (1 :: beBytes 4 paths.length)
      else .error (.data "key path sequence too long")

/-! ## Decoding -/

def invalid : IndexedDbError := .corruption "invalid IndexedDB binary key path"

def fromUtf8 (bytes : List UInt8) : Except IndexedDbError String :=
  match String.fromUTF8? ⟨bytes.toArray⟩ with
  | some value => .ok value
  | none => .error invalid

namespace Input

def take (length : Nat) (input : List UInt8) : Except IndexedDbError (List UInt8 × List UInt8) :=
  if length ≤ input.length then .ok (input.take length, input.drop length) else .error invalid

def count (input : List UInt8) : Except IndexedDbError (Nat × List UInt8) := do
  let (bytes, input) ← take 4 input
  .ok (ofBeBytes bytes, input)

def string (input : List UInt8) : Except IndexedDbError (String × List UInt8) := do
  let (length, input) ← count input
  let (bytes, input) ← take length input
  let value ← fromUtf8 bytes
  .ok (value, input)

/-- The loop over the strings of a sequence. -/
def strings : Nat → List UInt8 → Except IndexedDbError (List String × List UInt8)
  | 0, input => .ok ([], input)
  | count + 1, input => do
    let (path, input) ← string input
    let (paths, input) ← strings count input
    .ok (path :: paths, input)

/-- The key path behind its tag. -/
def keyPath (tag : UInt8) (input : List UInt8) : Except IndexedDbError (KeyPath × List UInt8) := do
  match tag with
  | 0 =>
    let (path, input) ← string input
    .ok (.string path, input)
  | 1 =>
    let (count, input) ← count input
    if count > input.length / 4 then .error invalid
    else
      let (paths, input) ← strings count input
      .ok (.sequence paths, input)
  | _ => .error invalid

end Input

def decodeValue (u : UnicodeId) (bytes : List UInt8) : Except IndexedDbError KeyPath :=
  match bytes with
  | [] => .error invalid
  | tag :: input => do
    let (path, input) ← Input.keyPath tag input
    if input.length ≠ 0 || !path.isValid u then .error invalid else .ok path

end KeyPath

end Moli.IndexedDb
