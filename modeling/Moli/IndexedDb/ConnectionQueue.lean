import Mathlib.Algebra.Order.Ring.Int
import Mathlib.Data.Multiset.Bind
import Mathlib.Data.Char
import Mathlib.Data.Prod.Lex
import Moli.Lib.SortedMap

/-!
# Open and delete requests

The queues of `connection_queue.rs`, one per storage key and database name. A wake callback is named
by the request it came with. An operation changes the state under the lock and fires its wakes after
that, one by one; `System` interleaves any number of such operations and records why each wake is
fired.
-/

namespace Moli.IndexedDb.ConnectionQueue

open Lib

variable {ν : Type} [LinearOrder ν]

/-- A storage key and a name, in the order of the map. -/
abbrev Key (ν : Type) := List Char ×ₗ ν

structure QueueState (ν : Type) [LinearOrder ν] where
  closed : Bool
  nextId : Nat
  queues : SortedMap (Key ν) (List Nat)

namespace QueueState

variable (state : QueueState ν)

def init : QueueState ν := ⟨false, 0, .empty⟩

/-- The requests for a key, empty if there is no queue. -/
def queue (key : Key ν) : List Nat := (state.queues.find key).getD []

/-- The request that is added, none if the queues are closed. The number of requests that a counter
of 64 bits allows is not exceeded: the source panics there. -/
def tryEnqueueNamed (key : Key ν) : Option (QueueState ν × Nat) :=
  if state.closed then none
  else if state.nextId + 1 < 2 ^ 64 then
    let id := state.nextId + 1
    some ({ state with
      nextId := id
      queues := state.queues.insert key (state.queue key ++ [id]) }, id)
  else none

def isActive (key : Key ν) (id : Nat) : Bool := id ∈ state.queue key

def isHead (key : Key ν) (id : Nat) : Bool := (state.queue key).head? = some id

/-- The state without the request, and the request to wake. -/
def finish (key : Key ν) (id : Nat) : QueueState ν × Option Nat :=
  match state.queues.find key with
  | none => (state, none)
  | some queue =>
    if id ∈ queue then
      let index := queue.idxOf id
      let rest := queue.eraseIdx index
      let wake := if index = 0 then rest.head? else none
      let queues := if rest.isEmpty then state.queues.remove key else state.queues.insert key rest
      ({ state with queues }, wake)
    else (state, none)

/-- The closed state, and the requests to wake. -/
def shutdown : QueueState ν × List Nat :=
  ({ state with closed := true, queues := .empty }, state.queues.entries.flatMap (·.2))

def cancelMatchingOwners (owns : List Char → Bool) : QueueState ν × List Nat :=
  ({ state with
      queues := state.queues.mapMaybe fun key queue => if owns (ofLex key).1 then none
        else some queue },
    (state.queues.entries.filter fun entry => owns (ofLex entry.1).1).flatMap (·.2))

def cancelOwner (owner : List Char) : QueueState ν × List Nat :=
  state.cancelMatchingOwners (· = owner)

def cancelOwnerPrefix (start : List Char) : QueueState ν × List Nat :=
  state.cancelMatchingOwners start.isPrefixOf

end QueueState

inductive Reason where
  | head
  | cancelled
deriving DecidableEq

structure Wake where
  id : Nat
  reason : Reason
deriving DecidableEq

inductive Event (ν : Type) where
  /-- `behind` is whether the queue had a request before. -/
  | enqueued (key : Key ν) (id : Nat) (behind : Bool)
  | finished (id : Nat)
  /-- The request is head now, because the one before it was finished. -/
  | promoted (key : Key ν) (id : Nat)
  | cancelled (id : Nat)
  | woken (wake : Wake)

structure System (ν : Type) [LinearOrder ν] where
  state : QueueState ν
  /-- The wakes that operations still have to fire. -/
  tasks : Multiset (List Wake)
  log : List (Event ν)

namespace System

def init : System ν := ⟨.init, 0, []⟩

/-- Requests are retired, and the operation goes on to wake them. -/
def retire (s : System ν) (retired : QueueState ν × List Nat) : System ν where
  state := retired.1
  tasks := retired.2.map (⟨·, .cancelled⟩) ::ₘ s.tasks
  log := s.log ++ retired.2.map .cancelled

inductive Step : System ν → System ν → Prop where
  | enqueue {s : System ν} {key : Key ν} {state : QueueState ν} {id : Nat}
      (h : s.state.tryEnqueueNamed key = some (state, id)) :
      Step s { s with
        state
        log := s.log ++ [.enqueued key id (!(s.state.queue key).isEmpty)] }
  /-- A lease is dropped, or a handle finishes its request. -/
  | finish (s : System ν) (key : Key ν) (id : Nat) :
      Step s {
        state := (s.state.finish key id).1
        tasks := (s.state.finish key id).2.toList.map (⟨·, .head⟩) ::ₘ s.tasks
        log := s.log ++ ((if s.state.isActive key id then [.finished id] else []) ++
          (s.state.finish key id).2.toList.map (.promoted key)) }
  | cancelOwner (s : System ν) (owner : List Char) : Step s (s.retire (s.state.cancelOwner owner))
  | cancelOwnerPrefix (s : System ν) (start : List Char) :
      Step s (s.retire (s.state.cancelOwnerPrefix start))
  | shutdown (s : System ν) : Step s (s.retire s.state.shutdown)
  | fire {s : System ν} {wake : Wake} {wakes : List Wake} {rest : Multiset (List Wake)}
      (h : s.tasks = (wake :: wakes) ::ₘ rest) :
      Step s { s with
        tasks := wakes ::ₘ rest
        log := s.log ++ [.woken wake] }

abbrev Steps : System ν → System ν → Prop := Relation.ReflTransGen Step

end System

end Moli.IndexedDb.ConnectionQueue
