import Moli.FileApi.BlobData

/-!
# Reading blob data

`BlobData::read`: the pieces of the range are read one after the other; a piece in memory completes
at once, a source completes its piece at any later time, on any thread. `ReadParts` collects the
pieces under a lock. The events of a read are the rounds of its loop, the completions of its pieces
and the call of its own completion, which the thread that took it makes after it left the lock.
-/

namespace Moli.FileApi

open Lib

variable {σ : Type} (grants : Nat → Bool)

/-- What a completion is called with. -/
abbrev Result := Except IoError Bytes

structure ReadParts where
  pending : Nat
  pieces : List (Option Bytes)
  -- whether the completion was not taken yet
  complete : Bool

namespace ReadParts

/-- The part of `finish` under the lock, with what it leaves for the completion if it took it. -/
def settle (state : ReadParts) (index : Nat) (bytes : Result) :
    Except Failure (ReadParts × Option (Except IoError (List (Option Bytes)))) :=
  if !state.complete then .ok (state, none)
  else
    match bytes with
    | .error error => .ok ({ state with complete := false }, some (.error error))
    | .ok bytes =>
      if index < state.pieces.length ∧ 0 < state.pending then
        let pieces := state.pieces.set index (some bytes)
        if state.pending - 1 ≠ 0 then
          .ok ({ state with pieces, pending := state.pending - 1 }, none)
        else .ok (⟨0, [], false⟩, some (.ok pieces))
      else .error .panicked

/-- The bytes of all pieces. -/
def join (pieces : List (Option Bytes)) : Except Failure Result := do
  let pieces ← pieces.mapM fun piece => piece.elim (throw .panicked) pure
  return do
    let length ← pieces.foldlM (fun total piece => addLength total piece.length) 0
    tryReserveExact grants length
    return pieces.flatten

end ReadParts

structure Read (σ : Type) where
  pieces : List (BlobData σ)
  -- none if the only piece is read with the completion itself
  parts : Option ReadParts
  -- the pieces whose reads were started are those before this one
  started : Nat
  -- the sources that have not completed yet
  outstanding : List Nat
  -- the results the completion is about to be called with, and those it was called with
  ready : List Result
  calls : List Result

inductive ReadEvent
  | start
  | complete (index : Nat) (result : Result)
  | call
deriving DecidableEq

namespace Read

/-- A read that calls its completion without reading. -/
def answered (result : Result) : Read σ := ⟨[], none, 0, [], [result], []⟩

/-- The completion of a piece is called. -/
def finish (read : Read σ) (index : Nat) (bytes : Result) : Except Failure (Read σ) :=
  match read.parts with
  | none => .ok { read with ready := read.ready ++ [bytes] }
  | some parts => do
    let (parts, done) ← parts.settle index bytes
    match done with
    | none => return { read with parts := some parts }
    | some (.error error) =>
      return { read with parts := some parts, ready := read.ready ++ [.error error] }
    | some (.ok pieces) =>
      let result ← ReadParts.join grants pieces
      return { read with parts := some parts, ready := read.ready ++ [result] }

/-- The length check of `read_piece`. -/
def checkLength (length : Nat) (result : Result) : Result := do
  let bytes ← result
  if bytes.length ≠ length then throw ⟨.invalidData, "Invalid Blob read length"⟩
  return bytes

/-- Nothing if the event cannot happen now. -/
def step (read : Read σ) : ReadEvent → Option (Except Failure (Read σ))
  | .start =>
    read.pieces[read.started]?.map fun piece =>
      let next := { read with started := read.started + 1 }
      match piece.backing with
      | .memory bytes => next.finish grants read.started (.ok (cut bytes piece.offset piece.length))
      | .source _ => .ok { next with outstanding := read.outstanding ++ [read.started] }
      | .parts _ => .error .panicked
  | .complete index result =>
    if index ∈ read.outstanding then
      read.pieces[index]?.map fun piece =>
        { read with outstanding := read.outstanding.erase index }.finish grants index
          (checkLength piece.length result)
    else none
  | .call =>
    match read.ready with
    | [] => none
    | result :: ready => some (.ok { read with ready, calls := read.calls ++ [result] })

def Step (read : Read σ) (event : ReadEvent) (read' : Read σ) : Prop :=
  read.step grants event = some (.ok read')

end Read

def BlobData.read (data : BlobData σ) (start stop : Nat) : Except Failure (Read σ) :=
  if stop < start ∨ data.length < stop then
    .ok (.answered (.error ⟨.invalidInput, "Invalid Blob range"⟩))
  else do
    let pieces ← (← data.slice start stop).leaves
    match pieces with
    | [] => return .answered (.ok [])
    | [piece] => return ⟨[piece], none, 0, [], [], []⟩
    | pieces =>
      return ⟨pieces, some ⟨pieces.length, List.replicate pieces.length none, true⟩, 0, [], [], []⟩

end Moli.FileApi
