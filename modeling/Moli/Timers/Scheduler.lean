import Mathlib.Data.Finset.Card
import Moli.Lib.Checked
import Moli.Lib.Selection

/-!
# The timer scheduler

`TimerScheduler` of `timers.rs`. The heap is the list of its entries, of which `peek` and `pop` give
the greatest by `Ord`; the hash sets are finite sets. A method returns its result and the scheduler
it leaves; a deadline outside the range of `Instant` and a search for an id that never ends are
faults.
-/

namespace Moli.Timers

open Lib

/-- Nanoseconds of the monotonic clock. -/
abbrev Instant := Nat

/-- The last instant: signed 64-bit seconds and a nanosecond part. -/
def Instant.last : Instant := (2 ^ 63 - 1) * 10 ^ 9 + 999999999

/-- `now + Duration::from_millis(delay_ms)`, which panics on overflow. -/
def deadlineAfter (now : Instant) (delayMs : Nat) : Option Instant :=
  if 10 ^ 6 * delayMs ≤ Instant.last ∧ now ≤ Instant.last - 10 ^ 6 * delayMs then
    some (now + 10 ^ 6 * delayMs)
  else none

inductive Fault where
  | deadlineOverflow
  /-- `allocate_id` goes round for ever. -/
  | idsExhausted

structure TimerId where
  get : UInt32
deriving DecidableEq

structure ReadyTimer (T : Type) where
  id : TimerId
  delayMs : Nat
  payload : T

structure ScheduledTimer (T : Type) where
  id : TimerId
  sequence : Nat
  runAt : Instant
  delayMs : Nat
  payload : T

variable {T : Type}

namespace ScheduledTimer

def isReadyAt (timer : ScheduledTimer T) (now : Instant) : Bool := timer.runAt ≤ now

def cmp (timer other : ScheduledTimer T) : Ordering :=
  match (compare timer.runAt other.runAt).swap with
  | .eq => (compare timer.sequence other.sequence).swap
  | ordering => ordering

/-- `timer_precedes`. -/
def precedes (left right : ScheduledTimer T) : Bool :=
  match compare left.runAt right.runAt with
  | .lt => true
  | .eq => left.sequence < right.sequence
  | .gt => false

def ready (timer : ScheduledTimer T) : ReadyTimer T := ⟨timer.id, timer.delayMs, timer.payload⟩

end ScheduledTimer

structure TimerScheduler (T : Type) where
  pending : List (ScheduledTimer T)
  active : Finset TimerId
  running : Finset TimerId
  cancelledRunning : Finset TimerId
  nextId : UInt32
  nextSequence : Nat

namespace TimerScheduler

def default : TimerScheduler T := ⟨[], ∅, ∅, ∅, 1, 0⟩

/-! ## The heap -/

/-- `BinaryHeap::pop`; `peek` is its first component. -/
def pop (pending : List (ScheduledTimer T)) :
    Option (ScheduledTimer T × List (ScheduledTimer T)) :=
  extract (fun timer other => timer.cmp other == .gt) pending

/-! ## Scheduling -/

variable (s : TimerScheduler T)

def scheduleExistingAfter (id : TimerId) (payload : T) (delayMs : Nat) (now : Instant) :
    Except Fault (TimerScheduler T) :=
  match deadlineAfter now delayMs with
  | none => .error .deadlineOverflow
  | some runAt =>
    .ok { s with
      nextSequence := min (s.nextSequence + 1) u64Max
      active := insert id s.active
      pending := ⟨id, s.nextSequence, runAt, delayMs, payload⟩ :: s.pending }

/-- The loop of `allocate_id`, which has seen every id after `2 ^ 32` rounds. -/
def allocateIdLoop : Nat → TimerScheduler T → Except Fault (TimerId × TimerScheduler T)
  | 0, _ => .error .idsExhausted
  | fuel + 1, s =>
    let id : TimerId := ⟨max s.nextId 1⟩
    let s := { s with nextId := max (s.nextId + 1) 1 }
    if id ∉ s.active ∧ id ∉ s.running then .ok (id, s) else allocateIdLoop fuel s

def allocateId : Except Fault (TimerId × TimerScheduler T) :=
  allocateIdLoop (2 ^ 32) s

def scheduleAfter (payload : T) (delayMs : Nat) (now : Instant) :
    Except Fault (TimerId × TimerScheduler T) := do
  let (id, s) ← s.allocateId
  let s ← s.scheduleExistingAfter id payload delayMs now
  return (id, s)

/-! ## Cancelling -/

def cancel (id : TimerId) : Bool × TimerScheduler T :=
  if id ∈ s.active then (true, { s with active := s.active.erase id })
  else if id ∈ s.running then
    (id ∉ s.cancelledRunning, { s with cancelledRunning := insert id s.cancelledRunning })
  else (false, s)

/-- One round of the loop of `cancel_matching`. -/
def cancelIfMatching (predicate : T → Bool) (state : Nat × Finset TimerId)
    (timer : ScheduledTimer T) : Nat × Finset TimerId :=
  if timer.id ∈ state.2 ∧ predicate timer.payload = true then
    (state.1 + 1, state.2.erase timer.id)
  else state

def cancelMatching (predicate : T → Bool) : Nat × TimerScheduler T :=
  let (cancelled, active) := s.pending.foldl (cancelIfMatching predicate) (0, s.active)
  (cancelled, { s with active })

/-! ## Taking -/

/-- The timer has left the heap and runs. -/
def start (timer : ScheduledTimer T) : TimerScheduler T :=
  { s with active := s.active.erase timer.id, running := insert timer.id s.running }

/-- The loop of `take_next_ready`; every round but the last one pops an entry. -/
def takeNextReadyLoop (now : Instant) :
    Nat → TimerScheduler T → Option (ReadyTimer T) × TimerScheduler T
  | 0, s => (none, s)
  | fuel + 1, s =>
    match pop s.pending with
    | none => (none, s)
    | some (timer, pending) =>
      if timer.id ∉ s.active then takeNextReadyLoop now fuel { s with pending }
      else if !timer.isReadyAt now then (none, s)
      else (some timer.ready, { s with pending }.start timer)

def takeNextReady (now : Instant) : Option (ReadyTimer T) × TimerScheduler T :=
  takeNextReadyLoop now (s.pending.length + 1) s

def nextReadyMatchingTimer (now : Instant) (predicate : T → Bool) : Option (ScheduledTimer T) :=
  selectFrom ScheduledTimer.precedes none (s.pending.filter fun timer =>
    timer.id ∈ s.active ∧ timer.isReadyAt now = true ∧ predicate timer.payload = true)

/-- The loop of `take_next_ready_matching`: it takes the selected entry out and keeps the active
ones. -/
def retain (active : Finset TimerId) (selectedId : TimerId) (selectedSequence : Nat) :
    Option (ScheduledTimer T) → List (ScheduledTimer T) →
      Option (ScheduledTimer T) × List (ScheduledTimer T)
  | selected, [] => (selected, [])
  | selected, timer :: timers =>
    if selected.isNone ∧ timer.id = selectedId ∧ timer.sequence = selectedSequence then
      retain active selectedId selectedSequence (some timer) timers
    else
      let (selected, retained) := retain active selectedId selectedSequence selected timers
      (selected, if timer.id ∈ active then timer :: retained else retained)

def takeNextReadyMatching (now : Instant) (predicate : T → Bool) :
    Option (ReadyTimer T) × TimerScheduler T :=
  match s.nextReadyMatchingTimer now predicate with
  | none => (none, s)
  | some selected =>
    match retain s.active selected.id selected.sequence none s.pending with
    | (none, pending) => (none, { s with pending })
    | (some timer, pending) => (some timer.ready, { s with pending }.start timer)

/-! ## Running timers -/

def finishRunning (id : TimerId) : TimerScheduler T :=
  { s with running := s.running.erase id, cancelledRunning := s.cancelledRunning.erase id }

def rescheduleRunningAfter (id : TimerId) (payload : T) (delayMs : Nat) (now : Instant) :
    Except Fault (Bool × TimerScheduler T) := do
  let s := { s with running := s.running.erase id }
  if id ∈ s.cancelledRunning then
    return (false, { s with cancelledRunning := s.cancelledRunning.erase id })
  let s ← s.scheduleExistingAfter id payload delayMs now
  return (true, s)

/-! ## Queries -/

def nextDeadline : Option Instant :=
  ((s.pending.filter (·.id ∈ s.active)).map (·.runAt)).min?

end TimerScheduler

/-! ## Runs -/

inductive Op (T : Type) where
  | scheduleAfter (payload : T) (delayMs : Nat) (now : Instant)
  | cancel (id : TimerId)
  | cancelMatching (predicate : T → Bool)
  | takeNextReady (now : Instant)
  | takeNextReadyMatching (now : Instant) (predicate : T → Bool)
  | finishRunning (id : TimerId)
  | rescheduleRunningAfter (id : TimerId) (payload : T) (delayMs : Nat) (now : Instant)

/-- What a method returns. -/
inductive Output (T : Type) where
  | id (id : TimerId)
  | flag (value : Bool)
  | count (value : Nat)
  | ready (timer : Option (ReadyTimer T))
  | unit

def TimerScheduler.step (s : TimerScheduler T) : Op T → Except Fault (Output T × TimerScheduler T)
  | .scheduleAfter payload delayMs now => do
    let (id, s) ← s.scheduleAfter payload delayMs now
    return (.id id, s)
  | .cancel id => let (value, s) := s.cancel id; .ok (.flag value, s)
  | .cancelMatching predicate =>
    let (value, s) := s.cancelMatching predicate; .ok (.count value, s)
  | .takeNextReady now => let (timer, s) := s.takeNextReady now; .ok (.ready timer, s)
  | .takeNextReadyMatching now predicate =>
    let (timer, s) := s.takeNextReadyMatching now predicate; .ok (.ready timer, s)
  | .finishRunning id => .ok (.unit, s.finishRunning id)
  | .rescheduleRunningAfter id payload delayMs now => do
    let (value, s) ← s.rescheduleRunningAfter id payload delayMs now
    return (.flag value, s)

/-- A scheduler and the number of timers scheduled so far. -/
structure World (T : Type) where
  scheduler : TimerScheduler T
  scheduled : Nat

namespace World

def new : World T := ⟨.default, 0⟩

/-- Only running timers are finished and rescheduled, and the ids do not run out. -/
def Legal (w : World T) : Op T → Prop
  | .scheduleAfter _ _ _ => w.scheduled + 1 < 2 ^ 32 - 1
  | .finishRunning id | .rescheduleRunningAfter id _ _ _ => id ∈ w.scheduler.running
  | _ => True

def count : Op T → Nat
  | .scheduleAfter _ _ _ => 1
  | _ => 0

/-- A step of a legal run, labelled with the call and what it returns. -/
structure Step (w : World T) (label : Op T × Output T) (w' : World T) : Prop where
  legal : w.Legal label.1
  returns : w.scheduler.step label.1 = .ok (label.2, w'.scheduler)
  scheduled : w'.scheduled = w.scheduled + count label.1

end World

end Moli.Timers
