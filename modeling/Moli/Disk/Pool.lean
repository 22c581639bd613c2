import Moli.Disk.Allocation
import Moli.Lib.ByteFile

/-!
# The disk pool

`pool.rs`, `reservation.rs`, `data.rs` and `file.rs`. A write is not one step: the lengths are
checked, then the operating system writes the bytes in as many pieces as it likes and may fail at
any of them, without the lock of the allocator. `World` therefore knows the writes in progress
besides the reservations and the stored data, and an `Op` is one atomic step of any thread.
-/

namespace Moli.Disk

open Lib

inductive IoErrorKind where
  | invalidInput
  | unexpectedEof
  | writeZero
  | other
deriving DecidableEq

structure IoError where
  kind : IoErrorKind
  message : String

structure DiskPool where
  file : List UInt8
  maxCapacity : Option Nat
  state : AllocationState

/-- A reserved extent that is automatically returned unless it is written. -/
structure ReservedChunk where
  extent : Option Extent

/-- `take_extent`, after which the chunk is empty. -/
def ReservedChunk.takeExtent (chunk : ReservedChunk) : Except Fault Extent :=
  expect chunk.extent .extentTaken

namespace DiskPool

def new (maxCapacity : Option Nat) : DiskPool :=
  ⟨[], maxCapacity, ⟨true, 0, .empty, .empty, 0⟩⟩

variable (pool : DiskPool)

/-- Grow the file tail. -/
def growTail (size : Nat) : Option (Extent × DiskPool) := do
  let newTail ← checkedAdd pool.state.fileTail size
  if pool.maxCapacity.any (· < newTail) then none
  else some (⟨pool.state.fileTail, size⟩,
    { pool with state := { pool.state with fileTail := newTail } })

def tryReserveChunk (size : Nat) : Except Fault (Option ReservedChunk × DiskPool) := do
  if size = 0 then return (none, pool)
  if !pool.state.mayWrite then return (none, pool)
  match ← findFreeChunk pool.state size with
  | (some extent, state) => return (some ⟨some extent⟩, { pool with state })
  | (none, state) =>
    match growTail { pool with state } size with
    | some (extent, pool) => return (some ⟨some extent⟩, pool)
    | none => return (none, { pool with state })

def release (pool : DiskPool) (extent : Extent) : Except Fault DiskPool := do
  let state ← releaseChunk pool.state extent
  return { pool with state }

/-- `Drop` for `ReservedChunk`. -/
def dropReserved (chunk : ReservedChunk) : Except Fault DiskPool :=
  match chunk.extent with
  | some extent => pool.release extent
  | none => .ok pool

/-- `write` up to the file access. `belongsTo` tells whether the call is on the pool of the chunk;
`pool` is that pool in either case, as it is the one the dropped chunk returns to. -/
def checkWrite (belongsTo : Bool) (chunk : ReservedChunk) (data : List UInt8) :
    Except Fault (Except IoError Extent × DiskPool) := do
  if !belongsTo then
    let pool ← pool.dropReserved chunk
    return (.error ⟨.invalidInput, "reserved chunk belongs to another disk pool"⟩, pool)
  let extent ← chunk.takeExtent
  if extent.len != data.length then
    let pool ← pool.release extent
    return (.error ⟨.invalidInput, "data length does not match reserved disk extent"⟩, pool)
  return (.ok extent, pool)

/-- `write` after a failed file access. -/
def failWrite (extent : Extent) : Except Fault DiskPool := do
  let state ← releaseChunk pool.state extent
  return { pool with state := { state with mayWrite := false } }

/-- `DiskData::read_exact_at`. -/
def readExactAt (extent : Extent) (offset len : Nat) : Except IoError (List UInt8) := do
  let some stop := checkedAdd offset len
    | throw ⟨.invalidInput, "disk data range overflow"⟩
  if extent.len < stop then throw ⟨.invalidInput, "disk data read exceeds extent"⟩
  let some absoluteOffset := checkedAdd extent.offset offset
    | throw ⟨.invalidInput, "disk data offset overflow"⟩
  let some bytes := ByteFile.read pool.file absoluteOffset len
    | throw ⟨.unexpectedEof, "disk pool file ended inside an allocated extent"⟩
  return bytes

end DiskPool

/-! ## Runs -/

/-- A `write_all_at` in progress: this much of the data has been written. -/
structure Writing where
  extent : Extent
  data : List UInt8
  written : Nat

/-- A `DiskData` and the bytes it was made from. -/
structure Stored where
  extent : Extent
  bytes : List UInt8

structure World where
  pool : DiskPool
  reserved : List ReservedChunk
  writing : List Writing
  stored : List Stored

/-- The steps. Positions are those of the lists of the world; `store` is a reservation followed by a
write, and other threads may come in between. -/
inductive Op where
  | tryReserveChunk (size : Nat)
  | write (position : Nat) (belongsTo : Bool) (data : List UInt8)
  /-- The operating system writes this many bytes. -/
  | writeAt (position : Nat) (count : Nat)
  /-- The operating system reports an error. -/
  | writeFails (position : Nat)
  | dropReserved (position : Nat)
  | dropData (position : Nat)

namespace World

def new (maxCapacity : Option Nat) : World := ⟨.new maxCapacity, [], [], []⟩

/-- The extents that belong to somebody. -/
def live (w : World) : List Extent :=
  w.reserved.filterMap (·.extent) ++ w.writing.map (·.extent) ++ w.stored.map (·.extent)

def failWrite (w : World) (position : Nat) (writing : Writing) : Except Fault World := do
  let pool ← w.pool.failWrite writing.extent
  return { w with pool, writing := w.writing.eraseIdx position }

def writeAt (w : World) (position count : Nat) (writing : Writing) : World :=
  let rest := writing.data.drop writing.written
  let piece := rest.take count
  let file := ByteFile.write w.pool.file (writing.extent.offset + writing.written) piece
  let pool := { w.pool with file }
  let written := writing.written + piece.length
  if written = writing.data.length then
    { w with pool, writing := w.writing.eraseIdx position
             stored := w.stored ++ [⟨writing.extent, writing.data⟩] }
  else { w with pool, writing := w.writing.set position { writing with written } }

def step (w : World) : Op → Except Fault World
  | .tryReserveChunk size => do
    let (chunk, pool) ← w.pool.tryReserveChunk size
    return { w with pool, reserved := w.reserved ++ chunk.toList }
  | .write position belongsTo data =>
    match w.reserved[position]? with
    | none => return w
    | some chunk => do
      let reserved := w.reserved.eraseIdx position
      match ← w.pool.checkWrite belongsTo chunk data with
      | (.error _, pool) => return { w with pool, reserved }
      | (.ok extent, pool) =>
        return { w with pool, reserved, writing := w.writing ++ [⟨extent, data, 0⟩] }
  | .writeAt position count =>
    match w.writing[position]? with
    | none => return w
    | some writing =>
      -- A write of nothing is the error `WriteZero`.
      if count = 0 then w.failWrite position writing else return w.writeAt position count writing
  | .writeFails position =>
    match w.writing[position]? with
    | none => return w
    | some writing => w.failWrite position writing
  | .dropReserved position =>
    match w.reserved[position]? with
    | none => return w
    | some chunk => do
      let pool ← w.pool.dropReserved chunk
      return { w with pool, reserved := w.reserved.eraseIdx position }
  | .dropData position =>
    match w.stored[position]? with
    | none => return w
    | some stored => do
      let pool ← w.pool.release stored.extent
      return { w with pool, stored := w.stored.eraseIdx position }

end World

def run (maxCapacity : Option Nat) (ops : List Op) : Except Fault World :=
  ops.foldlM World.step (.new maxCapacity)

end Moli.Disk
