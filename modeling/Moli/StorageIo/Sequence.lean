import Mathlib.Data.Finset.Card
import Moli.Lib.Checked

/-!
# Storage turns

`StorageIoSequence` of `io_queue.rs`. The locked sections of the sequence are functions on its
state, in which `none` is the panic of a ticket counter that overflows. `step` lets threads run them
in any order: each ticket has a phase, which says where the reservation or the turn is that holds
it.
-/

namespace Moli.StorageIo

open Lib

structure StorageIoSequenceState where
  nextTicket : Nat
  serving : Nat
  cancelled : Finset Nat

def advanceCancelledStorageTickets (state : StorageIoSequenceState) :
    Option StorageIoSequenceState :=
  if h : state.serving ∈ state.cancelled then
    have : (state.cancelled.erase state.serving).card < state.cancelled.card :=
      Finset.card_erase_lt_of_mem h
    match checkedAdd state.serving 1 with
    | none => none
    | some serving =>
      advanceCancelledStorageTickets
        { state with serving := serving, cancelled := state.cancelled.erase state.serving }
  else
    some state
termination_by state.cancelled.card

/-- The ticket of a new reservation. -/
def reserve (state : StorageIoSequenceState) : Option (Nat × StorageIoSequenceState) :=
  (checkedAdd state.nextTicket 1).map fun next =>
    (state.nextTicket, { state with nextTicket := next })

/-- `Drop` of a reservation that was not entered. -/
def dropReservation (state : StorageIoSequenceState) (ticket : Nat) :
    Option StorageIoSequenceState :=
  advanceCancelledStorageTickets { state with cancelled := insert ticket state.cancelled }

/-- `Drop` of a turn. -/
def dropTurn (state : StorageIoSequenceState) : Option StorageIoSequenceState :=
  (checkedAdd state.serving 1).bind fun serving =>
    advanceCancelledStorageTickets { state with serving := serving }

/-! ## Threads -/

/-- `entering` is a thread in the loop of `enter` that is about to look at `serving`, `asleep` one
that waits for `ready`. -/
inductive Phase where
  | unissued
  | reserved
  | entering
  | asleep
  | turn
  | finished
  | dropped
deriving DecidableEq

structure System where
  sequence : StorageIoSequenceState
  phase : Nat → Phase
  /-- The tickets of the turns so far, in the order in which they were granted. -/
  granted : List Nat

def System.init : System where
  sequence := { nextTicket := 0, serving := 0, cancelled := ∅ }
  phase := fun _ => .unissued
  granted := []

/-- The locked sections that threads run; `wake` is a wait for `ready` that returns by itself. -/
inductive Event where
  | reserve
  | enter (ticket : Nat)
  | look (ticket : Nat)
  | wake (ticket : Nat)
  | finish (ticket : Nat)
  | drop (ticket : Nat)

namespace System

def moveTo (s : System) (ticket : Nat) (phase : Phase) : System :=
  { s with phase := Function.update s.phase ticket phase }

/-- The end of a locked section that moves `serving`. -/
def notifyAll (s : System) (sequence : StorageIoSequenceState) : System where
  sequence := sequence
  phase := fun ticket => if s.phase ticket = .asleep then .entering else s.phase ticket
  granted := s.granted

/-- One round of the loop in `enter`. -/
def look (s : System) (ticket : Nat) : System :=
  if s.sequence.serving ≠ ticket then
    s.moveTo ticket .asleep
  else
    { s.moveTo ticket .turn with granted := s.granted ++ [ticket] }

/-- `none` where no thread is at that section, and where it panics. -/
def step (s : System) : Event → Option System
  | .reserve => (reserve s.sequence).map fun result =>
      { s.moveTo result.1 .reserved with sequence := result.2 }
  | .enter ticket => if s.phase ticket = .reserved then some (s.moveTo ticket .entering) else none
  | .look ticket => if s.phase ticket = .entering then some (s.look ticket) else none
  | .wake ticket => if s.phase ticket = .asleep then some (s.moveTo ticket .entering) else none
  | .finish ticket =>
    if s.phase ticket = .turn then
      (dropTurn s.sequence).map (s.moveTo ticket .finished).notifyAll
    else
      none
  | .drop ticket =>
    if s.phase ticket = .reserved then
      (dropReservation s.sequence ticket).map (s.moveTo ticket .dropped).notifyAll
    else
      none

end System

end Moli.StorageIo
