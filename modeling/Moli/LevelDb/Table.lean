import Moli.Lib.Endian

/-!
# Blocks of a LevelDB table

A block has entries, the offsets of the entries that share nothing with the key before them, and the
number of these offsets. `readEntries` gives the keys and values in the order in which it visits
them. A decoder is the rest of the bytes it reads from; lengths are groups of seven bits.
-/

namespace Moli.LevelDb

/-! ## Fields -/

open Lib

abbrev Bytes := List UInt8

inductive ParseError where
  | truncatedField
  | varint32Overflow
  | invalidVarint32
  | truncatedRestartArray
  | invalidRestartCount
  | noRestartPoints
  | restartOutOfBounds
  | unorderedRestarts
  | firstRestartNotZero
  | invalidKeyLength
  | restartInsideEntry
  | restartSharesKey
deriving DecidableEq

def ensure (condition : Bool) (error : ParseError) : Except ParseError Unit :=
  if condition then .ok () else .error error

/-- The bytes taken and the rest. -/
def take (length : Nat) (bytes : Bytes) : Except ParseError (Bytes × Bytes) :=
  if length ≤ bytes.length then .ok (bytes.take length, bytes.drop length)
  else .error .truncatedField

def varint32From (value : Nat) : List Nat → Bytes → Except ParseError (Nat × Bytes)
  | [], _ => .error .invalidVarint32
  | _ :: _, [] => .error .truncatedField
  | shift :: shifts, byte :: rest =>
    if shift = 28 ∧ 15 < byte then .error .varint32Overflow
    else
      let value := value ||| (byte.toNat &&& 127) <<< shift
      if byte < 128 then .ok (value, rest) else varint32From value shifts rest

def varint32 (bytes : Bytes) : Except ParseError (Nat × Bytes) :=
  varint32From 0 [0, 7, 14, 21, 28] bytes

/-! ## Blocks -/

open Lib

def readU32s : Nat → Bytes → List Nat
  | 0, _ => []
  | count + 1, bytes => leValue (bytes.take 4) :: readU32s count (bytes.drop 4)

def splitRestarts (block : Bytes) : Except ParseError (Bytes × List Nat) := do
  ensure (4 ≤ block.length) .truncatedRestartArray
  let body := block.take (block.length - 4)
  let count := leValue (block.drop (block.length - 4))
  ensure (4 * count ≤ body.length) .invalidRestartCount
  let entries := body.take (body.length - 4 * count)
  let restarts := readU32s count (body.drop (body.length - 4 * count))
  if restarts.isEmpty then ensure entries.isEmpty .noRestartPoints
  return (entries, restarts)

def checkRestarts (entriesEnd count : Nat) : Option Nat → List Nat → Except ParseError Unit
  | _, [] => .ok ()
  | previous, offset :: restarts => do
    ensure (offset < entriesEnd || entriesEnd == 0 && count == 1 && offset == 0) .restartOutOfBounds
    match previous with
    | some previous => ensure (previous < offset) .unorderedRestarts
    | none => ensure (offset == 0) .firstRestartNotZero
    checkRestarts entriesEnd count (some offset) restarts

/-- The restart points that are still to come after the entry at `offset`. -/
def passRestart (offset shared : Nat) (restarts : List Nat) : Except ParseError (List Nat) :=
  match restarts with
  | [] => .ok []
  | restart :: rest =>
    if restart < offset then .error .restartInsideEntry
    else if restart = offset then if shared = 0 then .ok rest else .error .restartSharesKey
    else .ok restarts

/-- The lengths of an entry: shared with the key before, own, and of the value. -/
def readLengths (input : Bytes) : Except ParseError ((Nat × Nat × Nat) × Bytes) := do
  let (shared, input) ← varint32 input
  let (unshared, input) ← varint32 input
  let (valueLength, input) ← varint32 input
  return ((shared, unshared, valueLength), input)

/-- An entry: its key and value, the restart points to come and the rest. -/
def readEntry (entriesEnd : Nat) (key : Bytes) (restarts : List Nat) (input : Bytes) :
    Except ParseError ((Bytes × Bytes) × List Nat × Bytes) := do
  let offset := entriesEnd - input.length
  let ((shared, unshared, valueLength), input) ← readLengths input
  ensure (shared ≤ key.length) .invalidKeyLength
  let restarts ← passRestart offset shared restarts
  let (suffix, input) ← take unshared input
  let (value, input) ← take valueLength input
  return ((key.take shared ++ suffix, value), restarts, input)

/-- Every entry takes at least three bytes, so the bytes bound the rounds. -/
def scanEntries (entriesEnd : Nat) : Nat → Bytes → List Nat → Bytes →
    Except ParseError (List (Bytes × Bytes) × List Nat)
  | 0, _, restarts, _ => .ok ([], restarts)
  | fuel + 1, key, restarts, input =>
    if input.isEmpty then .ok ([], restarts)
    else do
      let (entry, restarts, input) ← readEntry entriesEnd key restarts input
      let (visited, restarts) ← scanEntries entriesEnd fuel entry.1 restarts input
      return (entry :: visited, restarts)

def readEntries (block : Bytes) : Except ParseError (List (Bytes × Bytes)) := do
  let (entries, restarts) ← splitRestarts block
  checkRestarts entries.length restarts.length none restarts
  let (visited, left) ← scanEntries entries.length entries.length [] restarts entries
  ensure (entries.isEmpty || left.isEmpty) .restartInsideEntry
  return visited

end Moli.LevelDb
