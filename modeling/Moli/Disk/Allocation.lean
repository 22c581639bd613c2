import Mathlib.Data.Prod.Lex
import Moli.Lib.Checked
import Moli.Lib.SortedMap
import Moli.Lib.Tiling

/-!
# The allocator of the disk pool

`allocation.rs`: the free chunks of the file, once by offset and once by size, their total and the
file tail. Offsets and lengths are 64 bits wide; a failed `expect` or `debug_assert` and an
arithmetic overflow is a `Fault`.
-/

namespace Moli.Disk

open Lib

/-- Where the source panics. -/
inductive Fault where
  | offsetIndexOccupied
  | sizeIndexOccupied
  | offsetIndexMismatch
  | sizeIndexMissing
  | largestChunkMissing
  | extentOverflow
  | leftOverlap
  | rightOverlap
  | lengthOverflow
  | freeBytesUnderflow
  | freeBytesOverflow
  | extentTaken

def expect {α : Type} (a : Option α) (fault : Fault) : Except Fault α :=
  match a with
  | some a => .ok a
  | none => .error fault

def debugAssert (condition : Bool) (fault : Fault) : Except Fault Unit :=
  if condition then .ok () else .error fault

structure AllocationState where
  mayWrite : Bool
  fileTail : Nat
  freeChunksByOffset : SortedMap Nat Nat
  freeChunksBySize : SortedMap (Nat ×ₗ Nat) Unit
  freeBytes : Nat

namespace AllocationState

variable (state : AllocationState)

/-- The free chunks by offset. -/
def free : List Extent :=
  state.freeChunksByOffset.entries.map fun (offset, len) => ⟨offset, len⟩

def insertFreeChunk (extent : Extent) : Except Fault AllocationState := do
  debugAssert (state.freeChunksByOffset.find extent.offset).isNone .offsetIndexOccupied
  debugAssert (state.freeChunksBySize.find (toLex (extent.len, extent.offset))).isNone
    .sizeIndexOccupied
  return { state with
    freeChunksByOffset := state.freeChunksByOffset.insert extent.offset extent.len
    freeChunksBySize := state.freeChunksBySize.insert (toLex (extent.len, extent.offset)) () }

def removeFreeChunk (extent : Extent) : Except Fault AllocationState := do
  debugAssert (state.freeChunksByOffset.find extent.offset == some extent.len) .offsetIndexMismatch
  debugAssert (state.freeChunksBySize.find (toLex (extent.len, extent.offset))).isSome
    .sizeIndexMissing
  return { state with
    freeChunksByOffset := state.freeChunksByOffset.remove extent.offset
    freeChunksBySize := state.freeChunksBySize.remove (toLex (extent.len, extent.offset)) }

/-- The first chunk of exactly this size, by offset. -/
def firstOfSize (size : Nat) : Option (Nat × Nat) :=
  (state.freeChunksBySize.firstWithin (toLex (size, 0)) (toLex (size, u64Max))).map
    fun entry => ofLex entry.1

/-- The chunk to allocate from: an exact fit, or the first of the largest ones. -/
def chooseChunk (size : Nat) : Except Fault (Option Extent) :=
  match state.firstOfSize size with
  | some (len, offset) => .ok (some ⟨offset, len⟩)
  | none =>
    match state.freeChunksBySize.last with
    | none => .ok none
    | some (largest, ()) =>
      if (ofLex largest).1 ≤ size then .ok none
      else do
        let (len, offset) ← expect (state.firstOfSize (ofLex largest).1) .largestChunkMissing
        return some ⟨offset, len⟩

end AllocationState

/-- Cut `size` bytes off the chosen chunk. -/
def takeFromChunk (state : AllocationState) (chosen : Extent) (size : Nat) :
    Except Fault (Extent × AllocationState) := do
  let remainderOffset ← expect (checkedAdd chosen.offset size) .extentOverflow
  let state ← state.removeFreeChunk chosen
  let freeBytes ← expect (checkedSub state.freeBytes size) .freeBytesUnderflow
  let state := { state with freeBytes }
  if size < chosen.len then
    let state ← state.insertFreeChunk ⟨remainderOffset, chosen.len - size⟩
    return (⟨chosen.offset, size⟩, state)
  else return (chosen, state)

def findFreeChunk (state : AllocationState) (size : Nat) :
    Except Fault (Option Extent × AllocationState) := do
  match ← state.chooseChunk size with
  | none => return (none, state)
  | some chosen =>
    let (extent, state) ← takeFromChunk state chosen size
    return (some extent, state)

/-- The chunk that ends where the released extent begins is taken out and joined to it. -/
def mergeLeft (state : AllocationState) (merged : Extent) :
    Except Fault (Extent × AllocationState) :=
  match state.freeChunksByOffset.lastBelow merged.offset with
  | none => .ok (merged, state)
  | some (leftOffset, leftLen) => do
    let leftEnd ← expect (checkedAdd leftOffset leftLen) .extentOverflow
    debugAssert (leftEnd ≤ merged.offset) .leftOverlap
    if leftEnd = merged.offset then
      let state ← state.removeFreeChunk ⟨leftOffset, leftLen⟩
      let len ← expect (checkedAdd merged.len leftLen) .lengthOverflow
      return (⟨leftOffset, len⟩, state)
    else return (merged, state)

/-- The same for the chunk that begins where it ends. -/
def mergeRight (state : AllocationState) (merged : Extent) :
    Except Fault (Extent × AllocationState) :=
  match state.freeChunksByOffset.firstFrom merged.offset with
  | none => .ok (merged, state)
  | some (rightOffset, rightLen) => do
    let mergedEnd ← expect (checkedAdd merged.offset merged.len) .extentOverflow
    debugAssert (mergedEnd ≤ rightOffset) .rightOverlap
    if mergedEnd = rightOffset then
      let state ← state.removeFreeChunk ⟨rightOffset, rightLen⟩
      let len ← expect (checkedAdd merged.len rightLen) .lengthOverflow
      return (⟨merged.offset, len⟩, state)
    else return (merged, state)

def releaseChunk (state : AllocationState) (extent : Extent) : Except Fault AllocationState := do
  let (merged, state) ← mergeLeft state extent
  let (merged, state) ← mergeRight state merged
  let state ← state.insertFreeChunk merged
  let freeBytes ← expect (checkedAdd state.freeBytes extent.len) .freeBytesOverflow
  return { state with freeBytes }

end Moli.Disk
