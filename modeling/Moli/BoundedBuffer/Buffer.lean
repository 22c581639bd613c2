import Mathlib.Data.List.AList
import Moli.Lib.Checked

/-!
# The bounded byte buffer

A buffer that evicts entries in insertion order. Sums and differences of `usize` are checked: a
method is `none` where the arithmetic of the source would leave the range.
-/

namespace Moli.BoundedBuffer

open Lib

structure ByteLimits where
  maxTotalBytes : Nat
  maxEntryBytes : Nat
  /-- `usize`. -/
  fits : maxTotalBytes < 2 ^ 64

structure BufferedValue (V : Type) where
  value : V
  byteLen : Nat

structure BoundedByteBuffer (K V : Type) where
  limits : ByteLimits
  usedBytes : Nat
  insertionOrder : List K
  entries : AList fun _ : K => BufferedValue V

inductive InsertOutcome (K V : Type) where
  | stored (evicted : List (K × V))
  | rejected (key : K) (value : V)

namespace BoundedByteBuffer

variable {K V : Type} [DecidableEq K]

def new (limits : ByteLimits) : BoundedByteBuffer K V := ⟨limits, 0, [], ∅⟩

def remove (b : BoundedByteBuffer K V) (key : K) : Option (Option V × BoundedByteBuffer K V) :=
  match b.entries.lookup key with
  | none => some (none, b)
  | some entry => do
    let usedBytes ← checkedSub b.usedBytes entry.byteLen
    return (some entry.value, { b with
      usedBytes := usedBytes
      insertionOrder := b.insertionOrder.filter (· != key)
      entries := b.entries.erase key })

def clear (b : BoundedByteBuffer K V) : BoundedByteBuffer K V :=
  { b with usedBytes := 0, insertionOrder := [], entries := ∅ }

/-- The caller changes the value behind the reference. -/
def getMut (b : BoundedByteBuffer K V) (key : K) (change : V → V) : BoundedByteBuffer K V :=
  match b.entries.lookup key with
  | none => b
  | some entry =>
    { b with entries := b.entries.replace key { entry with value := change entry.value } }

/-- The loop of `pop_oldest` over the order. -/
def popFrom (b : BoundedByteBuffer K V) : List K → Option (Option (K × V) × BoundedByteBuffer K V)
  | [] => some (none, { b with insertionOrder := [] })
  | key :: order =>
    match b.entries.lookup key with
    | none => b.popFrom order
    | some entry => do
      let usedBytes ← checkedSub b.usedBytes entry.byteLen
      return (some (key, entry.value), { b with
        usedBytes := usedBytes
        insertionOrder := order
        entries := b.entries.erase key })

def popOldest (b : BoundedByteBuffer K V) : Option (Option (K × V) × BoundedByteBuffer K V) :=
  b.popFrom b.insertionOrder

/-- The loop of `insert`, `none` if it does not end within the rounds. -/
def evictTo (room : Nat) : Nat → BoundedByteBuffer K V → List (K × V) →
    Option (List (K × V) × BoundedByteBuffer K V)
  | 0, _, _ => none
  | rounds + 1, b, evicted =>
    if b.usedBytes > room then do
      let (oldest, b) ← b.popOldest
      match oldest with
      | none => return (evicted, b)
      | some entry => evictTo room rounds b (evicted ++ [entry])
    else some (evicted, b)

def insert (b : BoundedByteBuffer K V) (key : K) (value : V) (byteLen : Nat) :
    Option (InsertOutcome K V × BoundedByteBuffer K V) := do
  let (_, b) ← b.remove key
  if byteLen > b.limits.maxEntryBytes ∨ byteLen > b.limits.maxTotalBytes then
    return (.rejected key value, b)
  let room ← checkedSub b.limits.maxTotalBytes byteLen
  let (evicted, b) ← evictTo room (b.insertionOrder.length + 1) b []
  let usedBytes ← checkedAdd b.usedBytes byteLen
  return (.stored evicted, { b with
    usedBytes := usedBytes
    insertionOrder := b.insertionOrder ++ [key]
    entries := b.entries.insert key ⟨value, byteLen⟩ })

end BoundedByteBuffer

/-! ## Runs -/

inductive Op (K V : Type) where
  | insert (key : K) (value : V) (byteLen : Nat)
  | remove (key : K)
  | getMut (key : K) (change : V → V)
  | clear

/-- A buffer, with the keys of the inserts that stored their entry. -/
structure World (K V : Type) where
  buffer : BoundedByteBuffer K V
  stored : List K

variable {K V : Type} [DecidableEq K]

def InsertOutcome.isStored : InsertOutcome K V → Bool
  | stored _ => true
  | rejected _ _ => false

def World.step (w : World K V) : Op K V → Option (World K V)
  | .insert key value byteLen => do
    let (outcome, buffer) ← w.buffer.insert key value byteLen
    return ⟨buffer, w.stored ++ if outcome.isStored then [key] else []⟩
  | .remove key => do
    let (_, buffer) ← w.buffer.remove key
    return { w with buffer := buffer }
  | .getMut key change => some { w with buffer := w.buffer.getMut key change }
  | .clear => some { w with buffer := w.buffer.clear }

end Moli.BoundedBuffer
