import Moli.IndexedDb.Types
import Moli.Lib.Machine
import Moli.Lib.MapSum

/-!
# Versionchange notifications

The connection registry of `connection_notifications.rs`. The shared cells are heaps that only
grow: `states` holds the connection states and `batches` the versionchange batches, both addressed
by the position at which they were allocated. A notification is named by the batch that its
completion acknowledges. It is queued at a registered connection, in the hands of a recipient
(`taken`), or being dropped by a call that removed its connection (`retiring`); dropping it runs
`acknowledge`. A failed assertion in there is recorded in `underflow`.

The wake callbacks and the weak references to the batches that unregistering wakes are left out:
they schedule event loops and do not touch the registry.
-/

namespace Moli.IndexedDb.ConnectionNotifications

open Lib

structure ConnectionState where
  isOpen : Bool
  closePending : Bool

structure VersionChangeNotification where
  oldVersion : UInt64
  newVersion : Option UInt64
  /-- The batch that is acknowledged when the notification is dropped. -/
  completion : Nat

structure RegisteredConnection where
  key : String
  state : Nat
  notifications : List VersionChangeNotification

/-- A batch with its progress. -/
structure VersionChangeBatch where
  connections : List Nat
  pending : Nat
  blocked : Option Bool
deriving DecidableEq

structure Registry where
  states : List ConnectionState
  batches : List VersionChangeBatch
  connections : Std.TreeMap DatabaseHandle RegisteredConnection DatabaseHandle.cmp
  taken : List VersionChangeNotification
  retiring : List (List VersionChangeNotification)
  underflow : Bool

namespace Registry

def init : Registry where
  states := []
  batches := []
  connections := ∅
  taken := []
  retiring := []
  underflow := false

def isOpen (r : Registry) (state : Nat) : Bool :=
  (r.states[state]?.map ConnectionState.isOpen).getD false

def closePending (r : Registry) (state : Nat) : Bool :=
  (r.states[state]?.map ConnectionState.closePending).getD false

variable (r : Registry)

def hasOpenConnections (batch : VersionChangeBatch) : Bool :=
  batch.connections.any r.isOpen

/-- Dropping a `VersionChangeCompletion`. -/
def acknowledge (completion : Nat) : Registry :=
  match r.batches[completion]? with
  | none => r
  | some batch =>
    if 0 < batch.pending then
      let pending := batch.pending - 1
      let blocked := if pending = 0 then some (r.hasOpenConnections batch) else batch.blocked
      { r with batches := r.batches.set completion { batch with pending, blocked } }
    else { r with underflow := true }

/-- A handle that is registered already is replaced before the assertion fails, and unwinding drops
the connection that it had. -/
def register (handle : DatabaseHandle) (key : String) : Registry :=
  let previous := r.connections[handle]?
  { r with
    states := r.states ++ [⟨true, false⟩]
    connections := r.connections.insert handle ⟨key, r.states.length, []⟩
    retiring := match previous with
      | none => r.retiring
      | some connection => r.retiring ++ [connection.notifications] }

def markClosePending (handle : DatabaseHandle) : Registry :=
  match r.connections[handle]? with
  | none => r
  | some connection =>
    { r with states := r.states.modify connection.state ({ · with closePending := true }) }

def unregister (handle : DatabaseHandle) : Registry :=
  match r.connections[handle]? with
  | none => r
  | some connection =>
    { r with
      states := r.states.modify connection.state ({ · with isOpen := false })
      connections := r.connections.erase handle
      retiring := r.retiring ++ [connection.notifications] }

def beginVersionChange (key : String) (oldVersion : UInt64) (newVersion : Option UInt64) :
    Registry :=
  let snapshot := (r.connections.toList.filter fun x => x.2.key = key).map fun x => x.2.state
  let pending := snapshot.countP fun state => !r.closePending state
  let blocked := if pending = 0 then some (snapshot.any r.isOpen) else none
  let batch := r.batches.length
  { r with
    batches := r.batches ++ [⟨snapshot, pending, blocked⟩]
    connections := r.connections.map fun _ connection =>
      if connection.key = key ∧ r.closePending connection.state = false then
        { connection with
          notifications := connection.notifications ++ [⟨oldVersion, newVersion, batch⟩] }
      else connection }

def takeNotification (handle : DatabaseHandle) : Registry :=
  match r.connections[handle]? with
  | some ⟨key, state, notification :: rest⟩ =>
    { r with
      connections := r.connections.insert handle ⟨key, state, rest⟩
      taken := r.taken ++ [notification] }
  | _ => r

/-- A recipient drops a notification that it has taken. -/
def dropNotification (index : Nat) : Registry :=
  match r.taken[index]? with
  | none => r
  | some notification =>
    { r with taken := r.taken.eraseIdx index }.acknowledge notification.completion

/-- A call that removed a connection drops the next of its notifications. -/
def resume (call : Nat) : Registry :=
  match r.retiring[call]? with
  | some (notification :: rest) =>
    { r with retiring := r.retiring.set call rest }.acknowledge notification.completion
  | _ => r

end Registry

/-! ## Runs -/

inductive Op where
  | register (handle : DatabaseHandle) (key : String)
  | markClosePending (handle : DatabaseHandle)
  | beginVersionChange (key : String) (oldVersion : UInt64) (newVersion : Option UInt64)
  | takeNotification (handle : DatabaseHandle)
  | dropNotification (index : Nat)
  | unregister (handle : DatabaseHandle)
  | resume (call : Nat)

def Registry.step (r : Registry) : Op → Registry
  | .register handle key => r.register handle key
  | .markClosePending handle => r.markClosePending handle
  | .beginVersionChange key oldVersion newVersion => r.beginVersionChange key oldVersion newVersion
  | .takeNotification handle => r.takeNotification handle
  | .dropNotification index => r.dropNotification index
  | .unregister handle => r.unregister handle
  | .resume call => r.resume call

def connectionNotifications : Machine Registry Op := ⟨Registry.init, Registry.step⟩

end Moli.IndexedDb.ConnectionNotifications
