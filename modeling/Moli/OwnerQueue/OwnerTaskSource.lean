import Mathlib.Data.List.Basic

/-!
# The owner task source

The source of `owner_task_source.rs`: a local queue and two wake queues, one for parser boundaries
and one for regular work. A wake queue is a channel whose items its owner moves to a buffer. It
keeps a sender of its own, so that a channel never closes and a receive on an empty one waits: a
method that waits returns `none` there and leaves the moved items in the buffer.
-/

namespace Moli.OwnerQueue

variable {T : Type}

/-! ## Wake queues -/

structure OwnerWakeQueue (T : Type) where
  buffered : List T
  -- the items in the channel, in the order they were sent
  rx : List T

namespace OwnerWakeQueue

def new : OwnerWakeQueue T := ⟨[], []⟩

def send (queue : OwnerWakeQueue T) (item : T) : OwnerWakeQueue T :=
  { queue with rx := queue.rx ++ [item] }

variable (queue : OwnerWakeQueue T)

def drainIncoming : OwnerWakeQueue T := ⟨queue.buffered ++ queue.rx, []⟩

/-- The destination with the items and the queue without them. -/
def tryDrainInto (dst : List T) : List T × OwnerWakeQueue T :=
  let queue := queue.drainIncoming
  (dst ++ queue.buffered, { queue with buffered := [] })

def popFront : Option T × OwnerWakeQueue T :=
  let queue := queue.drainIncoming
  match queue.buffered with
  | [] => (none, queue)
  | item :: buffered => (some item, { queue with buffered })

/-- One poll of `recv`; the channel is empty after `pop_front` found nothing. -/
def recv : Option T × OwnerWakeQueue T := queue.popFront

end OwnerWakeQueue

/-! ## The source -/

structure OwnerTaskSource (T : Type) where
  tasks : List T
  parserBoundaryWake : OwnerWakeQueue T
  wake : OwnerWakeQueue T

namespace OwnerTaskSource

def new : OwnerTaskSource T := ⟨[], .new, .new⟩

variable (s : OwnerTaskSource T)

def enqueueLocal (item : T) : OwnerTaskSource T :=
  { s with tasks := s.tasks ++ [item] }

def enqueueParserBoundaryLocal (item : T) : OwnerTaskSource T :=
  { s with tasks := item :: s.tasks }

def extendLocal (items : List T) : OwnerTaskSource T :=
  { s with tasks := s.tasks ++ items }

def drainWake : OwnerTaskSource T :=
  let (front, parserBoundaryWake) := s.parserBoundaryWake.tryDrainInto []
  let tasks := if front.isEmpty then s.tasks else front ++ s.tasks
  let (tasks, wake) := s.wake.tryDrainInto tasks
  { tasks, parserBoundaryWake, wake }

def acceptReadyWakes : OwnerTaskSource T := s.drainWake

def clearLocal : OwnerTaskSource T := { s.drainWake with tasks := [] }

def popFrontLocalOnly : Option T × OwnerTaskSource T :=
  match s.tasks with
  | [] => (none, s)
  | item :: tasks => (some item, { s with tasks })

def popFront : Option T × OwnerTaskSource T := s.drainWake.popFrontLocalOnly

def front : Option T × OwnerTaskSource T :=
  (s.drainWake.tasks.head?, s.drainWake)

/-- One poll of `wait_for_arrival`, and of `wait_for_local_wake_arrival`, which has the same
body. -/
def waitForArrival : Option Bool × OwnerTaskSource T :=
  let s := s.drainWake
  if !s.tasks.isEmpty then (some true, s)
  else
    match s.wake.recv with
    | (some task, wake) => (some true, { s with tasks := s.tasks ++ [task], wake }.drainWake)
    | (none, wake) => (none, { s with wake })

/-- One poll of `wait_for_wake_arrival`: the select is biased towards the parser boundary. -/
def waitForWakeArrival : Option Bool × OwnerTaskSource T :=
  match s.parserBoundaryWake.recv with
  | (some task, parserBoundaryWake) =>
    (some true, { s with tasks := task :: s.tasks, parserBoundaryWake }.drainWake)
  | (none, parserBoundaryWake) =>
    match s.wake.recv with
    | (some task, wake) =>
      (some true, { s with tasks := s.tasks ++ [task], parserBoundaryWake, wake }.drainWake)
    | (none, wake) => (none, { s with parserBoundaryWake, wake })

end OwnerTaskSource

end Moli.OwnerQueue
