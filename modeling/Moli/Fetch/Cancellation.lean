import Moli.Lib.Trace

/-!
# Response progress and cancellation

`cancellation.rs`. Handles and transfers are numbered in the order of their creation. A
`CancellationToken` is taken to cancel its descendants at once, so a handle is cancelled when its
own token or the one of an ancestor is. `step` lets threads run the locked sections and the
exchanges in any order; `adopt_response_progress` is two sections, and what a thread holds in
between is among the `writers`. The timing of a response is left out.
-/

namespace Moli.Fetch

open Function

inductive ResponseState where
  | pending
  | committed
  | cancelled
deriving DecidableEq

namespace ResponseState

/-- The result of `compare_exchange` and the state it leaves. -/
def compareExchange (state current new : ResponseState) :
    Except ResponseState ResponseState × ResponseState :=
  if state = current then (.ok state, new) else (.error state, state)

def commitState (state : ResponseState) : ResponseState :=
  (state.compareExchange .pending .committed).2

def cancelIfPending (state : ResponseState) : Bool × ResponseState :=
  match state.compareExchange .pending .cancelled with
  | (.error .committed, state) => (false, state)
  | (_, state) => (true, state)

end ResponseState

structure World where
  handles : Nat
  /-- The token of a handle and those of its ancestors. -/
  tokens : Nat → List Nat
  cancelled : Nat → Bool
  selected : Nat → Nat
  responses : Nat
  progress : Nat → ResponseState
  /-- The transfers that a thread has a reference to. -/
  writers : List Nat

def World.init : World where
  handles := 0
  tokens := fun _ => []
  cancelled := fun _ => false
  selected := fun _ => 0
  responses := 0
  progress := fun _ => .pending
  writers := []

namespace World

variable (w : World)

def isCancelled (handle : Nat) : Bool := (w.tokens handle).any w.cancelled

def responseCompletionIsCommitted (handle : Nat) : Bool :=
  w.progress (w.selected handle) == .committed

/-- A handle with a new token below the given ones and a progress of its own. -/
def create (ancestors : List Nat) : World :=
  { w with
    handles := w.handles + 1
    tokens := update w.tokens w.handles (w.handles :: ancestors)
    selected := update w.selected w.handles w.responses
    responses := w.responses + 1
    progress := update w.progress w.responses .pending }

def childForSubrequest (handle : Nat) : World := w.create (w.tokens handle)

def cancel (handle : Nat) : World :=
  { w with cancelled := update w.cancelled handle true }

def cancelIfResponsePending (handle : Nat) : Bool × World :=
  let result := (w.progress (w.selected handle)).cancelIfPending
  let w := { w with progress := update w.progress (w.selected handle) result.2 }
  if !result.1 then (false, w) else (true, w.cancel handle)

def beginResponseProgress (handle : Nat) : World :=
  let state := if w.isCancelled handle then ResponseState.pending.cancelIfPending.2 else .pending
  { w with
    selected := update w.selected handle w.responses
    responses := w.responses + 1
    progress := update w.progress w.responses state
    writers := w.responses :: w.writers }

def commit (writer : Nat) : World :=
  { w with progress := update w.progress writer (w.progress writer).commitState }

/-- `response_progress`, and the first section of `adopt_response_progress`. -/
def responseProgress (handle : Nat) : World :=
  { w with writers := w.selected handle :: w.writers }

/-- The second section of `adopt_response_progress`. -/
def adoptResponseProgress (handle writer : Nat) : World :=
  { w with
    selected := if !w.isCancelled handle then update w.selected handle writer else w.selected }

end World

/-- What threads do; queries change nothing. -/
inductive Event where
  | new
  | childForSubrequest (handle : Nat)
  | cancel (handle : Nat)
  | cancelIfResponsePending (handle : Nat)
  | beginResponseProgress (handle : Nat)
  | commit (writer : Nat)
  | responseProgress (handle : Nat)
  | adoptResponseProgress (handle writer : Nat)

namespace World

/-- There are such handles, and somebody has the writer. -/
def Enabled (w : World) : Event → Prop
  | .new => True
  | .childForSubrequest handle => handle < w.handles
  | .cancel handle => handle < w.handles
  | .cancelIfResponsePending handle => handle < w.handles
  | .beginResponseProgress handle => handle < w.handles
  | .commit writer => writer ∈ w.writers
  | .responseProgress handle => handle < w.handles
  | .adoptResponseProgress handle writer => handle < w.handles ∧ writer ∈ w.writers

def step (w : World) : Event → World
  | .new => w.create []
  | .childForSubrequest handle => w.childForSubrequest handle
  | .cancel handle => w.cancel handle
  | .cancelIfResponsePending handle => (w.cancelIfResponsePending handle).2
  | .beginResponseProgress handle => w.beginResponseProgress handle
  | .commit writer => w.commit writer
  | .responseProgress handle => w.responseProgress handle
  | .adoptResponseProgress handle writer => w.adoptResponseProgress handle writer

end World

/-- Threads that take some steps. -/
def Run : World → List Event → World → Prop :=
  Lib.Trace fun w event w' => w.Enabled event ∧ w' = w.step event

end Moli.Fetch
