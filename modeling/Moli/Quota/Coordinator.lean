import Mathlib.Data.Finset.Basic
import Mathlib.Data.Multiset.Bind
import Moli.Lib.Assoc

/-!
# The quota coordinator

Reservations of storage buckets, as `moli-storage-service` serialises them. The functions on a
`QuotaState` are the sections under the lock; `Step` is one step of a system of threads, which are
known by what they do next. A callback is known by the number of the `reserve_async` call it was
passed to. It may keep its reservation, drop it, register other callbacks or panic: the steps for
these may come at any time, so nothing more is said of it than that it ends.
-/

namespace Moli.Quota

variable {β : Type} [DecidableEq β]

abbrev QuotaReady := Nat

structure QuotaState (β : Type) where
  active : Finset β
  waiting : AList fun _ : β => List QuotaReady
  ready : List (β × QuotaReady)
  draining : Bool

namespace QuotaState

def empty : QuotaState β := ⟨∅, ∅, [], false⟩

variable (state : QuotaState β)

/-- The answer is whether the caller has to drain the list. -/
def enqueueReady (locator : β) (ready : QuotaReady) : Bool × QuotaState β :=
  (!state.draining, { state with ready := state.ready ++ [(locator, ready)], draining := true })

def insertActive (locator : β) : QuotaState β :=
  { state with active := insert locator state.active }

/-- The locked section of `reserve_async`. -/
def register (locator : β) (ready : QuotaReady) : Bool × QuotaState β :=
  if locator ∈ state.active then
    (false, { state with
      waiting := state.waiting.insert locator ((state.waiting.lookup locator).getD [] ++ [ready]) })
  else (state.insertActive locator).enqueueReady locator ready

/-- The callbacks left to a bucket; an empty list goes out of the map. -/
def setWaiting (locator : β) (left : List QuotaReady) : QuotaState β :=
  { state with
    waiting := if left.isEmpty then state.waiting.erase locator
      else state.waiting.insert locator left }

/-- The locked section of `release`. -/
def release (state : QuotaState β) (locator : β) : Bool × QuotaState β :=
  match state.waiting.lookup locator with
  | some (ready :: left) => (state.setWaiting locator left).enqueueReady locator ready
  | some [] => (false, { state.setWaiting locator [] with active := state.active.erase locator })
  | none => (false, { state with active := state.active.erase locator })

/-- The locked section of `drain_ready`. -/
def popReady : Option (β × QuotaReady) × QuotaState β :=
  match state.ready with
  | [] => (none, { state with draining := false })
  | next :: ready => (some next, { state with ready := ready })

/-- `wait_for_dispatch` has to wait. -/
def dispatchPending : Bool :=
  !state.waiting.entries.isEmpty || state.draining

end QuotaState

/-! ## Threads -/

/-- What a thread does next, at one level of its stack. -/
inductive Task (β : Type) where
  /-- In `reserve`: check the bucket, or sleep until notified. -/
  | reserving (locator : β) (asleep : Bool)
  /-- In `wait_for_dispatch`. -/
  | awaiting (asleep : Bool)
  /-- In `drain_ready`: take the next callback. -/
  | draining
  | invoking (locator : β) (ready : QuotaReady)
  /-- In `drain_ready`, while the callback runs. -/
  | calling
  /-- In `drain_ready`: notify and return. -/
  | drained
  | releasing (locator : β)
  /-- In `release`: notify, then drain if asked to. -/
  | notifying (drain : Bool)

namespace Task

def wake : Task β → Task β
  | reserving locator _ => reserving locator false
  | awaiting _ => awaiting false
  | task => task

def isAsleep : Task β → Bool
  | reserving _ asleep => asleep
  | awaiting asleep => asleep
  | _ => false

end Task

inductive Event (β : Type) where
  | registered (locator : β) (ready : QuotaReady)
  | invoked (locator : β) (ready : QuotaReady)

structure System (β : Type) where
  state : QuotaState β
  /-- The buckets of the live reservations. -/
  live : Multiset β
  tasks : Multiset (Task β)
  /-- The number of calls of `reserve_async` so far. -/
  next : QuotaReady
  log : List (Event β)

namespace System

def start : System β := ⟨.empty, 0, 0, 0, []⟩

def drainTask (drain : Bool) : Multiset (Task β) := if drain then {.draining} else 0

inductive Step : System β → System β → Prop where
  | tryReserve {s : System β} (locator : β) (h : locator ∉ s.state.active) :
      Step s { s with state := s.state.insertActive locator, live := locator ::ₘ s.live }
  | reserve {s : System β} (locator : β) :
      Step s { s with tasks := .reserving locator false ::ₘ s.tasks }
  | sleep {s : System β} {locator : β} {rest : Multiset (Task β)}
      (h : s.tasks = .reserving locator false ::ₘ rest) (hactive : locator ∈ s.state.active) :
      Step s { s with tasks := .reserving locator true ::ₘ rest }
  | reserved {s : System β} {locator : β} {rest : Multiset (Task β)}
      (h : s.tasks = .reserving locator false ::ₘ rest) (hactive : locator ∉ s.state.active) :
      Step s { s with
        state := s.state.insertActive locator, live := locator ::ₘ s.live, tasks := rest }
  | reserveAsync {s : System β} (locator : β) :
      Step s { s with
        state := (s.state.register locator s.next).2
        tasks := drainTask (s.state.register locator s.next).1 + s.tasks
        next := s.next + 1
        log := s.log ++ [.registered locator s.next] }
  | drop {s : System β} {locator : β} {rest : Multiset β} (h : s.live = locator ::ₘ rest) :
      Step s { s with live := rest, tasks := .releasing locator ::ₘ s.tasks }
  | release {s : System β} {locator : β} {rest : Multiset (Task β)}
      (h : s.tasks = .releasing locator ::ₘ rest) :
      Step s { s with
        state := (s.state.release locator).2
        tasks := .notifying (s.state.release locator).1 ::ₘ rest }
  | notify {s : System β} {drain : Bool} {rest : Multiset (Task β)}
      (h : s.tasks = .notifying drain ::ₘ rest) :
      Step s { s with tasks := drainTask drain + rest.map Task.wake }
  | pop {s : System β} {locator : β} {ready : QuotaReady} {rest : Multiset (Task β)}
      (h : s.tasks = .draining ::ₘ rest) (hpop : s.state.popReady.1 = some (locator, ready)) :
      Step s { s with state := s.state.popReady.2, tasks := .invoking locator ready ::ₘ rest }
  | popNone {s : System β} {rest : Multiset (Task β)} (h : s.tasks = .draining ::ₘ rest)
      (hpop : s.state.popReady.1 = none) :
      Step s { s with state := s.state.popReady.2, tasks := .drained ::ₘ rest }
  | invoke {s : System β} {locator : β} {ready : QuotaReady} {rest : Multiset (Task β)}
      (h : s.tasks = .invoking locator ready ::ₘ rest) :
      Step s { s with
        live := locator ::ₘ s.live
        tasks := .calling ::ₘ rest
        log := s.log ++ [.invoked locator ready] }
  /-- The callback returns or panics. -/
  | called {s : System β} {rest : Multiset (Task β)} (h : s.tasks = .calling ::ₘ rest) :
      Step s { s with tasks := .draining ::ₘ rest }
  | notifyDrained {s : System β} {rest : Multiset (Task β)} (h : s.tasks = .drained ::ₘ rest) :
      Step s { s with tasks := rest.map Task.wake }
  | await {s : System β} : Step s { s with tasks := .awaiting false ::ₘ s.tasks }
  | awaitSleep {s : System β} {rest : Multiset (Task β)} (h : s.tasks = .awaiting false ::ₘ rest)
      (hpending : s.state.dispatchPending = true) :
      Step s { s with tasks := .awaiting true ::ₘ rest }
  | awaited {s : System β} {rest : Multiset (Task β)} (h : s.tasks = .awaiting false ::ₘ rest)
      (hdone : s.state.dispatchPending = false) : Step s { s with tasks := rest }
  /-- A spurious wake-up. -/
  | wakeUp {s : System β} {task : Task β} {rest : Multiset (Task β)} (h : s.tasks = task ::ₘ rest) :
      Step s { s with tasks := task.wake ::ₘ rest }

end System

end Moli.Quota
