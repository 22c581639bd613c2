import Mathlib.Algebra.Order.Ring.Int
import Mathlib.Data.Finset.Disjoint
import Moli.Lib.Machine

/-!
# The message port registry

The registry of `registry.rs`, generic in the payload type `P` and the owner type `O`. Each method
returns its result and the registry it leaves. Identifiers are 64-bit words; the counter wraps and
skips zero as `fetch_add(1).max(1)` does. `World` adds the log of what the callers saw of payloads
and close notifications, and `step` the operations that change the registry.
-/

namespace Moli.MessagePort

open Lib

/-- `u64`. -/
abbrev MessagePortId := UInt64

inductive MessagePortCloseKind where
  | peerClosed
  | connectionError
deriving DecidableEq

/-- One atomic observation of an endpoint and its enabled receiving queue. -/
inductive MessagePortPoll (P : Type) where
  | removed
  | idle
  | message (payload : P)
  | close (kind : MessagePortCloseKind)

structure MessagePortWake (O : Type) where
  portId : MessagePortId
  owner : O

structure MessagePortCloseResult (P O : Type) where
  peerWake : Option (MessagePortWake O)
  discardedMessages : List P

structure DiscardedMessagePort (P O : Type) where
  portId : MessagePortId
  owner : Option O
  discardedMessages : List P

structure MessagePortState (P O : Type) where
  peerId : Option MessagePortId
  owner : Option O
  pendingMessages : List P
  pendingClose : Option MessagePortCloseKind

abbrev Ports (P O : Type) :=
  Std.TreeMap MessagePortId (MessagePortState P O) (compare : UInt64 → UInt64 → Ordering)

structure MessagePortRegistry (P O : Type) where
  ports : Ports P O
  nextPortId : UInt64

namespace MessagePortRegistry

variable {P O : Type}

def default : MessagePortRegistry P O := ⟨∅, 1⟩

variable (r : MessagePortRegistry P O)

def nextMessagePortId : MessagePortId × MessagePortRegistry P O :=
  (max r.nextPortId 1, { r with nextPortId := r.nextPortId + 1 })

/-! ## Endpoints -/

def createMessagePort (owner : O) : MessagePortId × MessagePortRegistry P O :=
  let (portId, r) := r.nextMessagePortId
  (portId, { r with ports := r.ports.insert portId ⟨none, some owner, [], none⟩ })

def createDisconnectedMessagePort (owner : O) : MessagePortId × MessagePortRegistry P O :=
  let (portId, r) := r.nextMessagePortId
  (portId, { r with
    ports := r.ports.insert portId ⟨none, some owner, [], some .connectionError⟩ })

def createEntangledMessagePortPair (owner : O) :
    (MessagePortId × MessagePortId) × MessagePortRegistry P O :=
  let (port1, r) := r.nextMessagePortId
  let (port2, r) := r.nextMessagePortId
  let ports := r.ports.insert port1 ⟨some port2, some owner, [], none⟩
  ((port1, port2), { r with ports := ports.insert port2 ⟨some port1, some owner, [], none⟩ })

/-- Replace the state of an endpoint that is registered. -/
def update (portId : MessagePortId) (state : MessagePortState P O) : MessagePortRegistry P O :=
  { r with ports := r.ports.insert portId state }

def attachMessagePortOwner (portId : MessagePortId) (owner : O) :
    Option (MessagePortWake O) × MessagePortRegistry P O :=
  match r.ports[portId]? with
  | none => (none, r)
  | some state =>
    (if state.pendingClose.isSome || !state.pendingMessages.isEmpty then some ⟨portId, owner⟩
      else none,
      r.update portId { state with owner := some owner })

/-- The owner of an endpoint is forgotten. -/
def removeOwner (portId : MessagePortId) : MessagePortRegistry P O :=
  match r.ports[portId]? with
  | none => r
  | some state => r.update portId { state with owner := none }

def detachMessagePortOwnerForTransfer (portId : MessagePortId) : MessagePortRegistry P O :=
  r.removeOwner portId

def clearMessagePortOwner (portId : MessagePortId) : MessagePortRegistry P O :=
  r.removeOwner portId

/-! ## Messages -/

def enqueueMessageToEndpoint (portId : MessagePortId) (payload : P) :
    Except P Unit × MessagePortRegistry P O :=
  match r.ports[portId]? with
  | none => (.error payload, r)
  | some state =>
    (.ok (), r.update portId
      { state with pendingMessages := state.pendingMessages ++ [payload] })

def enqueueMessageToMessagePort (portId : MessagePortId) (payload : P) :
    Except P MessagePortId × MessagePortRegistry P O :=
  match r.ports[portId]?.bind MessagePortState.peerId with
  | none => (.error payload, r)
  | some peerId =>
    match r.ports[peerId]? with
    | none => (.error payload, r)
    | some peerState =>
      (.ok peerId, r.update peerId
        { peerState with pendingMessages := peerState.pendingMessages ++ [payload] })

def pollMessagePort (portId : MessagePortId) (started : Bool) :
    MessagePortPoll P × MessagePortRegistry P O :=
  match r.ports[portId]? with
  | none => (.removed, r)
  | some state =>
    if started = false then (.idle, r)
    else
      match state.pendingMessages with
      | message :: rest =>
        (.message message, r.update portId { state with pendingMessages := rest })
      | [] =>
        match state.pendingClose with
        | some close => (.close close, r.update portId { state with pendingClose := none })
        | none => (.idle, r)

def takePendingMessagePortMessage (portId : MessagePortId) : Option P × MessagePortRegistry P O :=
  match r.ports[portId]? with
  | none => (none, r)
  | some state =>
    match state.pendingMessages with
    | [] => (none, r)
    | message :: rest => (some message, r.update portId { state with pendingMessages := rest })

def takePendingMessagePortClose (portId : MessagePortId) :
    Option MessagePortCloseKind × MessagePortRegistry P O :=
  match r.ports[portId]? with
  | none => (none, r)
  | some state => (state.pendingClose, r.update portId { state with pendingClose := none })

/-! ## Removal -/

/-- Remove an endpoint. -/
def remove (portId : MessagePortId) : MessagePortRegistry P O :=
  { r with ports := r.ports.erase portId }

def discardMessagePortChannel (portId : MessagePortId) :
    List (DiscardedMessagePort P O) × MessagePortRegistry P O :=
  match r.ports[portId]? with
  | none => ([], r)
  | some state =>
    let r := r.remove portId
    let discarded := [⟨portId, state.owner, state.pendingMessages⟩]
    match state.peerId with
    | none => (discarded, r)
    | some peerId =>
      match r.ports[peerId]? with
      | none => (discarded, r)
      | some peer =>
        (discarded ++ [⟨peerId, peer.owner, peer.pendingMessages⟩], r.remove peerId)

def closeMessagePort (portId : MessagePortId) :
    MessagePortCloseResult P O × MessagePortRegistry P O :=
  match r.ports[portId]? with
  | none => (⟨none, []⟩, r)
  | some state =>
    let r := r.remove portId
    match state.peerId with
    | none => (⟨none, state.pendingMessages⟩, r)
    | some peerId =>
      match r.ports[peerId]? with
      | none => (⟨none, state.pendingMessages⟩, r)
      | some peerState =>
        (⟨peerState.owner.map (MessagePortWake.mk peerId), state.pendingMessages⟩,
          r.update peerId { peerState with peerId := none, pendingClose := some .peerClosed })

end MessagePortRegistry

/-! ## Runs -/

/-- What the callers see of payloads and close notifications. -/
inductive Event (P : Type) where
  | accepted (portId : MessagePortId) (payload : P)
  | returned (payload : P)
  | delivered (portId : MessagePortId) (payload : P)
  | discarded (portId : MessagePortId) (payload : P)
  | closed (portId : MessagePortId) (kind : MessagePortCloseKind)

structure World (P O : Type) where
  registry : MessagePortRegistry P O
  log : List (Event P)

inductive Op (P O : Type) where
  | createMessagePort (owner : O)
  | createDisconnectedMessagePort (owner : O)
  | createEntangledMessagePortPair (owner : O)
  | attachMessagePortOwner (portId : MessagePortId) (owner : O)
  | detachMessagePortOwnerForTransfer (portId : MessagePortId)
  | clearMessagePortOwner (portId : MessagePortId)
  | enqueueMessageToEndpoint (portId : MessagePortId) (payload : P)
  | enqueueMessageToMessagePort (portId : MessagePortId) (payload : P)
  | pollMessagePort (portId : MessagePortId) (started : Bool)
  | takePendingMessagePortMessage (portId : MessagePortId)
  | takePendingMessagePortClose (portId : MessagePortId)
  | discardMessagePortChannel (portId : MessagePortId)
  | closeMessagePort (portId : MessagePortId)

variable {P O : Type}

def MessagePortPoll.events (portId : MessagePortId) : MessagePortPoll P → List (Event P)
  | .removed => []
  | .idle => []
  | .message payload => [.delivered portId payload]
  | .close kind => [.closed portId kind]

def DiscardedMessagePort.events (d : DiscardedMessagePort P O) : List (Event P) :=
  d.discardedMessages.map (.discarded d.portId)

/-- The log of a call and the registry it leaves. -/
def MessagePortRegistry.step (r : MessagePortRegistry P O) :
    Op P O → List (Event P) × MessagePortRegistry P O
  | .createMessagePort owner => ([], (r.createMessagePort owner).2)
  | .createDisconnectedMessagePort owner => ([], (r.createDisconnectedMessagePort owner).2)
  | .createEntangledMessagePortPair owner => ([], (r.createEntangledMessagePortPair owner).2)
  | .attachMessagePortOwner portId owner => ([], (r.attachMessagePortOwner portId owner).2)
  | .detachMessagePortOwnerForTransfer portId => ([], r.detachMessagePortOwnerForTransfer portId)
  | .clearMessagePortOwner portId => ([], r.clearMessagePortOwner portId)
  | .enqueueMessageToEndpoint portId payload =>
    match r.enqueueMessageToEndpoint portId payload with
    | (.ok (), r) => ([.accepted portId payload], r)
    | (.error payload, r) => ([.returned payload], r)
  | .enqueueMessageToMessagePort portId payload =>
    match r.enqueueMessageToMessagePort portId payload with
    | (.ok peerId, r) => ([.accepted peerId payload], r)
    | (.error payload, r) => ([.returned payload], r)
  | .pollMessagePort portId started =>
    match r.pollMessagePort portId started with
    | (poll, r) => (poll.events portId, r)
  | .takePendingMessagePortMessage portId =>
    match r.takePendingMessagePortMessage portId with
    | (message, r) => (message.toList.map (.delivered portId), r)
  | .takePendingMessagePortClose portId =>
    match r.takePendingMessagePortClose portId with
    | (close, r) => (close.toList.map (.closed portId), r)
  | .discardMessagePortChannel portId =>
    match r.discardMessagePortChannel portId with
    | (discarded, r) => (discarded.flatMap DiscardedMessagePort.events, r)
  | .closeMessagePort portId =>
    match r.closeMessagePort portId with
    | (result, r) => (result.discardedMessages.map (.discarded portId), r)

def World.step (w : World P O) (op : Op P O) : World P O :=
  ⟨(w.registry.step op).2, w.log ++ (w.registry.step op).1⟩

def messagePorts : Machine (World P O) (Op P O) := ⟨⟨.default, []⟩, World.step⟩

/-- The identifiers an operation allocates. -/
def Op.allocations : Op P O → Nat
  | .createMessagePort _ => 1
  | .createDisconnectedMessagePort _ => 1
  | .createEntangledMessagePortPair _ => 2
  | _ => 0

/-- The payload an operation hands in. -/
def Op.payload? : Op P O → Option P
  | .enqueueMessageToEndpoint _ payload => some payload
  | .enqueueMessageToMessagePort _ payload => some payload
  | _ => none

end Moli.MessagePort
