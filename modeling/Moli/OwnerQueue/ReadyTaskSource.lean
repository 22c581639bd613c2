import Moli.Lib.Machine

/-!
# The owner-ready task source

The source of `owner_ready_task_source.rs`: a local queue that only the owner touches, and behind
one lock the incoming queue of the producer routes, the readiness flag and whether the source still
lives. Each method is one step under the lock; `Outcome` says what its caller and the ready signal
saw of it.
-/

namespace Moli.OwnerQueue

open Lib

structure OwnerReadyTaskState (T : Type) where
  incoming : List T
  ready : Bool
  sourceOpen : Bool

/-- The source with the state it shares with its routes. -/
structure OwnerReadyTaskSource (T : Type) where
  tasks : List T
  state : OwnerReadyTaskState T

variable {T : Type}

def OwnerReadyTaskState.default : OwnerReadyTaskState T := ⟨[], false, true⟩

/-! ## Producer routes -/

/-- What a send returns, and whether it has called `signal_ready`. -/
structure Sent (T R : Type) where
  result : Except T R
  signaled : Bool

namespace OwnerReadyTaskState

variable (state : OwnerReadyTaskState T)

/-- Append to an open source and signal where it becomes ready. -/
def accept (tasks : List T) : Bool × OwnerReadyTaskState T :=
  (!state.ready, { state with incoming := state.incoming ++ tasks, ready := true })

def sendAndSignalIfNewlyReady (task : T) : Sent T Unit × OwnerReadyTaskState T :=
  if state.sourceOpen then
    let (signaled, state) := state.accept [task]
    (⟨.ok (), signaled⟩, state)
  else (⟨.error task, false⟩, state)

def sendAllAndSignalIfNewlyReady : List T → Sent T Nat × OwnerReadyTaskState T
  | [] => (⟨.ok 0, false⟩, state)
  | first :: rest =>
    if state.sourceOpen then
      let (signaled, state) := state.accept (first :: rest)
      (⟨.ok (rest.length + 1), signaled⟩, state)
    else (⟨.error first, false⟩, state)

end OwnerReadyTaskState

/-! ## The owner -/

namespace OwnerReadyTaskSource

def new : OwnerReadyTaskSource T := ⟨[], .default⟩

variable (s : OwnerReadyTaskSource T)

/-- Everything accepted, in the order in which the owner finds it. -/
def queue : List T := s.tasks ++ s.state.incoming

/-- The local queue becomes `tasks`, all of `incoming` has been taken over. -/
def rearm (tasks : List T) : OwnerReadyTaskSource T :=
  ⟨tasks, { s.state with incoming := [], ready := !tasks.isEmpty }⟩

def enqueueLocal (task : T) : OwnerReadyTaskSource T :=
  ⟨s.tasks ++ [task], { s.state with ready := true }⟩

def front : Option T × OwnerReadyTaskSource T :=
  let tasks := s.tasks ++ s.state.incoming
  (tasks.head?, ⟨tasks, { s.state with incoming := [], ready := tasks.head?.isSome }⟩)

def popFront : Option T × OwnerReadyTaskSource T :=
  let tasks := s.tasks ++ s.state.incoming
  (tasks.head?, s.rearm tasks.tail)

def isEmpty (s : OwnerReadyTaskSource T) : Bool × OwnerReadyTaskSource T :=
  let tasks := s.tasks ++ s.state.incoming
  (tasks.isEmpty, s.rearm tasks)

def hasMatchingTask (predicate : T → Bool) : Bool × OwnerReadyTaskSource T :=
  let tasks := s.tasks ++ s.state.incoming
  (tasks.any predicate, s.rearm tasks)

def withTasksMut {R : Type} (s : OwnerReadyTaskSource T) (operation : List T → R × List T) :
    R × OwnerReadyTaskSource T :=
  let (result, tasks) := operation (s.tasks ++ s.state.incoming)
  (result, s.rearm tasks)

/-- The discarded tasks with what is left. -/
def clearLocal : List T × OwnerReadyTaskSource T :=
  (s.tasks ++ s.state.incoming, ⟨[], { s.state with incoming := [], ready := false }⟩)

/-- The local tasks are dropped with the source. -/
def drop (s : OwnerReadyTaskSource T) : List T × OwnerReadyTaskSource T :=
  (s.tasks ++ s.state.incoming, ⟨[], ⟨[], false, false⟩⟩)

end OwnerReadyTaskSource

/-! ## Interleavings -/

inductive Op (T : Type) where
  | send (task : T)
  | sendAll (tasks : List T)
  | enqueueLocal (task : T)
  | front
  | popFront
  | isEmpty
  | hasMatchingTask (predicate : T → Bool)
  | withTasksMut (operation : List T → List T)
  | clearLocal
  | drop

/-- The tasks a route hands in. -/
def Op.sent : Op T → List T
  | .send task => [task]
  | .sendAll tasks => tasks
  | _ => []

/-- The tasks the owner enqueues itself. -/
def Op.enqueued : Op T → List T
  | .enqueueLocal task => [task]
  | _ => []

/-- What is seen of a step: the ready signal, the refusal of a send, the tasks that leave the
source, consumed or discarded. -/
structure Outcome (T : Type) where
  signaled : Bool
  refused : Option T
  removed : List T

def Outcome.silent : Outcome T := ⟨false, none, []⟩

def Sent.outcome {R : Type} : Sent T R → Outcome T
  | ⟨.ok _, signaled⟩ => ⟨signaled, none, []⟩
  | ⟨.error task, signaled⟩ => ⟨signaled, some task, []⟩

namespace OwnerReadyTaskSource

/-- A step of the owner. -/
def ownerStep (s : OwnerReadyTaskSource T) : Op T → Outcome T × OwnerReadyTaskSource T
  | .enqueueLocal task => (.silent, s.enqueueLocal task)
  | .front => (.silent, s.front.2)
  | .popFront => (⟨false, none, s.popFront.1.toList⟩, s.popFront.2)
  | .isEmpty => (.silent, s.isEmpty.2)
  | .hasMatchingTask predicate => (.silent, (s.hasMatchingTask predicate).2)
  | .withTasksMut operation => (.silent, (s.withTasksMut fun tasks => ((), operation tasks)).2)
  | .clearLocal => (⟨false, none, s.clearLocal.1⟩, s.clearLocal.2)
  | .drop => (⟨false, none, s.drop.1⟩, s.drop.2)
  | .send _ | .sendAll _ => (.silent, s)

/-- One step of a producer or the owner. There is no owner once the source has been dropped. -/
def step (s : OwnerReadyTaskSource T) : Op T → Outcome T × OwnerReadyTaskSource T
  | .send task =>
    let (sent, state) := s.state.sendAndSignalIfNewlyReady task
    (sent.outcome, { s with state })
  | .sendAll tasks =>
    let (sent, state) := s.state.sendAllAndSignalIfNewlyReady tasks
    (sent.outcome, { s with state })
  | op => if s.state.sourceOpen then s.ownerStep op else (.silent, s)

end OwnerReadyTaskSource

/-- The source under any interleaving of its routes and its owner. -/
def readyTasks : Machine (OwnerReadyTaskSource T) (Op T) := ⟨.new, fun s op => (s.step op).2⟩

/-- The tasks that leave the source in a run, in this order. -/
def removedBy : OwnerReadyTaskSource T → List (Op T) → List T
  | _, [] => []
  | s, op :: ops => (s.step op).1.removed ++ removedBy (s.step op).2 ops

/-- The batches the routes have accepted in a run, a single task being a batch of one. -/
def acceptedBatches : OwnerReadyTaskSource T → List (Op T) → List (List T)
  | _, [] => []
  | s, op :: ops =>
    (if s.state.sourceOpen && !op.sent.isEmpty then [op.sent] else []) ++
      acceptedBatches (s.step op).2 ops

/-- The tasks the owner has enqueued itself in a run. -/
def enqueuedBy : OwnerReadyTaskSource T → List (Op T) → List T
  | _, [] => []
  | s, op :: ops =>
    (if s.state.sourceOpen then op.enqueued else []) ++ enqueuedBy (s.step op).2 ops

end Moli.OwnerQueue
