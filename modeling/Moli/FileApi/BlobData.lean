import Moli.Lib.Lists
import Moli.Lib.Loops

/-!
# Blob data

`blob_data.rs`: immutable bytes in memory, in a source that is read on demand, or in parts. A panic
of the source is an error of the model. Sums of offsets and lengths are natural numbers; those of
the blobs the operations build stay below `2 ^ 64`.
-/

namespace Moli.FileApi

open Lib

/-- The largest `usize`. -/
def usizeMax : Nat := 2 ^ 64 - 1

/-- No allocation is larger. -/
def isizeMax : Nat := 2 ^ 63 - 1

abbrev Bytes := List UInt8

inductive ErrorKind
  | invalidInput
  | invalidData
  | other
deriving DecidableEq

structure IoError where
  kind : ErrorKind
  message : String
deriving DecidableEq

/-- How a call ends without a value. -/
inductive Failure
  | panicked
  | io (error : IoError)

mutual

structure BlobData (σ : Type) where
  backing : Backing σ
  offset : Nat
  length : Nat

inductive Backing (σ : Type)
  | memory (bytes : Bytes)
  | source (source : σ)
  | parts (parts : List (BlobData σ))

end

variable {σ : Type}

def sizeOverflow : IoError := ⟨.other, "Blob size overflow"⟩

/-- `checked_add` of lengths. -/
def addLength (total length : Nat) : Except IoError Nat :=
  if total + length ≤ usizeMax then .ok (total + length) else .error sizeOverflow

/-- `try_reserve_exact`: no vector is larger than `isizeMax`, and of the other lengths the allocator
grants some. -/
def tryReserveExact (grants : Nat → Bool) (length : Nat) : Except IoError Unit :=
  if length ≤ isizeMax ∧ grants length = true then .ok ()
  else .error ⟨.other, "Unable to allocate Blob bytes"⟩

namespace BlobData

def ofBytes (bytes : Bytes) : BlobData σ := ⟨.memory bytes, 0, bytes.length⟩

def fromSource (source : σ) (length : Nat) : BlobData σ := ⟨.source source, 0, length⟩

variable (data : BlobData σ)

def len : Nat := data.length

def isEmpty : Bool := data.length = 0

def asBytes : Option Bytes :=
  match data.backing with
  | .memory bytes => some (cut bytes data.offset data.length)
  | _ => none

def slice (data : BlobData σ) (start stop : Nat) : Except Failure (BlobData σ) :=
  if start ≤ stop ∧ stop ≤ data.length then
    .ok ⟨data.backing, data.offset + start, stop - start⟩
  else .error .panicked

/-- What lies between `first` and `last` in a part that starts at `offset`, if anything. -/
def overlap (first last offset : Nat) (part : BlobData σ) : Except Failure (List (BlobData σ)) :=
  let start := max first offset
  let stop := min last (offset + part.len)
  if start < stop then (part.slice (start - offset) (stop - offset)).map ([·]) else .ok []

/-- The loop over the parts of a blob: the children between `first` and `last`. -/
def clip (first last : Nat) : Nat → List (BlobData σ) → Except Failure (List (BlobData σ))
  | _, [] => .ok []
  | offset, part :: parts => do
    let child ← overlap first last offset part
    let next := offset + part.len
    if last ≤ next then return child
    return child ++ (← clip first last next parts)

/-- One round of the loop of `leaves`: what it pushes, and the pieces so far. -/
def visit (pieces : List (BlobData σ)) (data : BlobData σ) :
    Except Failure (List (BlobData σ) × List (BlobData σ)) :=
  if data.isEmpty then .ok ([], pieces)
  else
    match data.backing with
    | .parts parts => do
      let children ← clip data.offset (data.offset + data.length) 0 parts
      return (children, pieces)
    | _ => .ok ([], pieces ++ [data])

mutual

/-- The number of blobs a blob is made of, which bounds the rounds of `leaves`. -/
def weight : BlobData σ → Nat
  | ⟨.parts parts, _, _⟩ => weights parts + 1
  | ⟨_, _, _⟩ => 1

def weights : List (BlobData σ) → Nat
  | [] => 0
  | part :: parts => part.weight + weights parts

end

def leaves : Except Failure (List (BlobData σ)) :=
  drain visit .panicked data.weight [] [data]

def concat (grants : Nat → Bool) (parts : List (BlobData σ)) : Except Failure (BlobData σ) := do
  let parts := (← parts.mapM leaves).flatten
  match parts with
  | [] => return ofBytes []
  | [part] => return part
  | parts =>
    let length ← (parts.foldlM (fun total part => addLength total part.len) 0).mapError .io
    if parts.all fun part => part.asBytes.isSome then
      (tryReserveExact grants length).mapError .io
      let bytes ← parts.mapM fun part => part.asBytes.elim (throw .panicked) pure
      return ofBytes bytes.flatten
    return ⟨.parts parts, 0, length⟩

end BlobData

end Moli.FileApi
