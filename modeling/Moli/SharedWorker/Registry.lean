import Mathlib.Algebra.Order.Ring.Int
import Mathlib.Data.List.Basic
import Mathlib.Data.List.AList

/-!
# The shared worker registry

The matching key of `key.rs` with the storage key it contains, the creation options of `options.rs`,
the identifiers of `client.rs` and the registry of `registry.rs`, generic in the embedder's instance
type. The hash maps are association lists, whose order stands for the order of iteration. A method
returns its result and the registry it leaves; a counter that overflows is a fault.
-/

namespace Moli.SharedWorker

structure SharedWorkerClientId where
  asU64 : Nat
deriving DecidableEq

/-- The browsing context that owns client connections. -/
structure SharedWorkerClientOwnerId where
  asU64 : Nat
deriving DecidableEq

def SharedWorkerClientOwnerId.uniqueForClient (clientId : SharedWorkerClientId) :
    SharedWorkerClientOwnerId := ⟨clientId.asU64⟩

structure SharedWorkerInstanceId where
  asU64 : Nat
deriving DecidableEq

/-! ## Keys -/

inductive StoragePartitionRelation where
  | firstParty
  | thirdParty
  | unknown
deriving DecidableEq

structure MoliStorageKey where
  origin : String
  topLevelSite : String
  opaqueNonce : Option Nat
  partitionRelation : StoragePartitionRelation
  crossSiteAncestor : Bool
deriving DecidableEq

inductive SharedWorkerSameSiteCookies where
  | all
  | none
deriving DecidableEq

/-- Two constructor calls with the same key share a worker. -/
structure SharedWorkerKey where
  storageKey : MoliStorageKey
  scriptUrl : String
  name : String
  sameSiteCookies : SharedWorkerSameSiteCookies
deriving DecidableEq

/-! ## Options -/

inductive SharedWorkerScriptType where
  | classic
  | module
deriving DecidableEq

inductive SharedWorkerCredentialsMode where
  | omit
  | sameOrigin
  | include
deriving DecidableEq

inductive SharedWorkerCreationContextType where
  | secure
  | nonsecure
deriving DecidableEq

structure SharedWorkerDescriptor where
  scriptType : SharedWorkerScriptType
  credentialsMode : SharedWorkerCredentialsMode
  extendedLifetime : Bool
  creationContextType : SharedWorkerCreationContextType

inductive SharedWorkerCompatibilityError where
  | scriptType (existing requested : SharedWorkerScriptType)
  | credentialsMode (existing requested : SharedWorkerCredentialsMode)
  | extendedLifetime (existing requested : Bool)
  | creationContextType (existing requested : SharedWorkerCreationContextType)
deriving DecidableEq

namespace SharedWorkerDescriptor

def default : SharedWorkerDescriptor := ⟨.classic, .sameOrigin, false, .secure⟩

def ensureCompatibleWith (self requested : SharedWorkerDescriptor) :
    Except SharedWorkerCompatibilityError Unit := do
  if self.scriptType ≠ requested.scriptType then
    throw (.scriptType self.scriptType requested.scriptType)
  if self.credentialsMode ≠ requested.credentialsMode then
    throw (.credentialsMode self.credentialsMode requested.credentialsMode)
  if self.extendedLifetime ≠ requested.extendedLifetime then
    throw (.extendedLifetime self.extendedLifetime requested.extendedLifetime)
  if self.creationContextType ≠ requested.creationContextType then
    throw (.creationContextType self.creationContextType requested.creationContextType)

end SharedWorkerDescriptor

/-! ## Entries -/

structure SharedWorkerClientRecord where
  clientId : SharedWorkerClientId
  ownerId : SharedWorkerClientOwnerId

inductive SharedWorkerEntryState (I : Type) where
  | loading
  | running (instance' : I)

namespace SharedWorkerEntryState

variable {I : Type}

def isLoading : SharedWorkerEntryState I → Bool
  | .loading => true
  | .running _ => false

def instance? : SharedWorkerEntryState I → Option I
  | .loading => none
  | .running instance' => some instance'

end SharedWorkerEntryState

structure SharedWorkerEntry (I : Type) where
  instanceId : SharedWorkerInstanceId
  descriptor : SharedWorkerDescriptor
  clients : List SharedWorkerClientRecord
  state : SharedWorkerEntryState I

variable {I : Type}

namespace SharedWorkerEntry

def ensureCompatibleWith (entry : SharedWorkerEntry I) (requested : SharedWorkerDescriptor) :
    Except SharedWorkerCompatibilityError Unit :=
  entry.descriptor.ensureCompatibleWith requested

variable (entry : SharedWorkerEntry I)

def addClient (client : SharedWorkerClientRecord) : SharedWorkerEntry I :=
  { entry with clients := entry.clients ++ [client] }

/-- Also tells whether no client is left. -/
def removeClient (clientId : SharedWorkerClientId) : Bool × SharedWorkerEntry I :=
  let clients := entry.clients.filter (·.clientId ≠ clientId)
  (clients.isEmpty, { entry with clients })

def clientOwnerId (clientId : SharedWorkerClientId) : Option SharedWorkerClientOwnerId :=
  entry.clients.findSome? fun client =>
    if client.clientId = clientId then some client.ownerId else none

def clientIds : List SharedWorkerClientId :=
  entry.clients.map (·.clientId)

/-- The owners, each at its first client. -/
def clientOwnerIds : List SharedWorkerClientOwnerId :=
  entry.clients.foldl (fun owners client =>
    if client.ownerId ∈ owners then owners else owners ++ [client.ownerId]) []

def clientCountForOwner (ownerId : SharedWorkerClientOwnerId) : Nat :=
  entry.clients.countP (·.ownerId = ownerId)

end SharedWorkerEntry

/-! ## Results -/

inductive SharedWorkerClientOwnerEvent where
  | firstClientAdded (instanceId : SharedWorkerInstanceId) (ownerId : SharedWorkerClientOwnerId)
  | lastClientRemoved (instanceId : SharedWorkerInstanceId) (ownerId : SharedWorkerClientOwnerId)

inductive SharedWorkerConnectAction (I : Type) where
  | startLoading (instanceId : SharedWorkerInstanceId) (clientId : SharedWorkerClientId)
  | queueWhileLoading (instanceId : SharedWorkerInstanceId) (clientId : SharedWorkerClientId)
  | connectToRunning (instanceId : SharedWorkerInstanceId) (clientId : SharedWorkerClientId)
      (instance' : I)
  | rejectClient (clientId : SharedWorkerClientId) (error : SharedWorkerCompatibilityError)

inductive SharedWorkerLoadReady (I : Type) where
  | running (instanceId : SharedWorkerInstanceId) (clients : List SharedWorkerClientId)
      (instance' : I)
  | stale

inductive SharedWorkerLoadFailure where
  | failed (instanceId : SharedWorkerInstanceId) (clients : List SharedWorkerClientId)
  | stale

inductive SharedWorkerClientRemoval (I : Type) where
  | removedFromLoading (instanceId : SharedWorkerInstanceId)
  | removedFromRunning (instanceId : SharedWorkerInstanceId) (instance' : I)
  | cancelLoading (instanceId : SharedWorkerInstanceId) (key : SharedWorkerKey)
  | terminate (instanceId : SharedWorkerInstanceId) (key : SharedWorkerKey) (instance' : I)
  | missing

inductive SharedWorkerInstanceRemoval (I : Type) where
  | removed (key : SharedWorkerKey) (instanceId : SharedWorkerInstanceId)
      (clients : List SharedWorkerClientId) (instance' : Option I)
  | missing

structure SharedWorkerObservedAction (A : Type) where
  action : A
  ownerEvents : List SharedWorkerClientOwnerEvent

def lastClientRemovedEvent (instanceId : SharedWorkerInstanceId)
    (ownerId : Option SharedWorkerClientOwnerId)
    (emit : Bool) : List SharedWorkerClientOwnerEvent :=
  match ownerId, emit with
  | some ownerId, true => [.lastClientRemoved instanceId ownerId]
  | _, _ => []

def lastClientRemovedEvents (instanceId : SharedWorkerInstanceId) (entry : SharedWorkerEntry I) :
    List SharedWorkerClientOwnerEvent :=
  entry.clientOwnerIds.map (.lastClientRemoved instanceId)

/-! ## The registry -/

abbrev Entries (I : Type) := AList fun _ : SharedWorkerKey => SharedWorkerEntry I

structure SharedWorkerRegistry (I : Type) where
  nextClientId : Nat
  nextInstanceId : Nat
  entries : Entries I
  clientKeys : AList fun _ : SharedWorkerClientId => SharedWorkerKey

inductive Fault where
  | counterOverflow

/-- `counter += 1` for a `u64`. -/
def increment (counter : Nat) : Except Fault Nat :=
  if counter < 2 ^ 64 - 1 then .ok (counter + 1) else .error .counterOverflow

namespace SharedWorkerRegistry

def default : SharedWorkerRegistry I := ⟨0, 0, ∅, ∅⟩

variable (r : SharedWorkerRegistry I)

/-- `connect_locked` after the instance id has been drawn. -/
def connectSlot (key : SharedWorkerKey) (descriptor : SharedWorkerDescriptor)
    (client : SharedWorkerClientRecord) (instanceId : SharedWorkerInstanceId) :
    SharedWorkerObservedAction (SharedWorkerConnectAction I) × SharedWorkerRegistry I :=
  match r.entries.lookup key with
  | some entry =>
    match entry.ensureCompatibleWith descriptor with
    | .error error => (⟨.rejectClient client.clientId error, []⟩, r)
    | .ok () =>
      let firstClientForOwner := entry.clientCountForOwner client.ownerId = 0
      let action := match entry.state with
        | .loading => .queueWhileLoading entry.instanceId client.clientId
        | .running instance' => .connectToRunning entry.instanceId client.clientId instance'
      (⟨action,
          if firstClientForOwner then [.firstClientAdded entry.instanceId client.ownerId] else []⟩,
        { r with
          entries := r.entries.insert key (entry.addClient client)
          clientKeys := r.clientKeys.insert client.clientId key })
  | none =>
    (⟨.startLoading instanceId client.clientId, [.firstClientAdded instanceId client.ownerId]⟩,
      { r with
        clientKeys := r.clientKeys.insert client.clientId key
        entries := r.entries.insert key ⟨instanceId, descriptor, [client], .loading⟩ })

def connectLocked (key : SharedWorkerKey) (descriptor : SharedWorkerDescriptor)
    (clientId : SharedWorkerClientId) (clientOwnerId : SharedWorkerClientOwnerId) :
    Except Fault (SharedWorkerObservedAction (SharedWorkerConnectAction I) ×
      SharedWorkerRegistry I) := do
  let nextInstanceId ← increment r.nextInstanceId
  return { r with nextInstanceId }.connectSlot key descriptor ⟨clientId, clientOwnerId⟩
    ⟨nextInstanceId⟩

/-- `connect_observed`, and `connect_with_owner_observed` for an owner. -/
def connect (key : SharedWorkerKey) (descriptor : SharedWorkerDescriptor)
    (clientOwnerId : Option SharedWorkerClientOwnerId) :
    Except Fault (SharedWorkerObservedAction (SharedWorkerConnectAction I) ×
      SharedWorkerRegistry I) := do
  let nextClientId ← increment r.nextClientId
  let r := { r with nextClientId }
  r.connectLocked key descriptor ⟨nextClientId⟩
    (clientOwnerId.getD (.uniqueForClient ⟨nextClientId⟩))

def finishLoading (key : SharedWorkerKey) (instanceId : SharedWorkerInstanceId) (instance' : I) :
    SharedWorkerLoadReady I × SharedWorkerRegistry I :=
  match r.entries.lookup key with
  | none => (.stale, r)
  | some entry =>
    if entry.instanceId ≠ instanceId then (.stale, r)
    else if !entry.state.isLoading || entry.clients.isEmpty then (.stale, r)
    else (.running instanceId entry.clientIds instance',
      { r with entries := r.entries.insert key { entry with state := .running instance' } })

/-- The entry is gone and its clients with it. -/
def removeEntry (key : SharedWorkerKey) (entry : SharedWorkerEntry I) : SharedWorkerRegistry I :=
  { r with
    entries := r.entries.erase key
    clientKeys := entry.clientIds.foldl (fun keys clientId => keys.erase clientId) r.clientKeys }

def failLoading (key : SharedWorkerKey) (instanceId : SharedWorkerInstanceId) :
    SharedWorkerObservedAction SharedWorkerLoadFailure × SharedWorkerRegistry I :=
  match r.entries.lookup key with
  | none => (⟨.stale, []⟩, r)
  | some entry =>
    if entry.instanceId ≠ instanceId || !entry.state.isLoading then (⟨.stale, []⟩, r)
    else (⟨.failed instanceId entry.clientIds, lastClientRemovedEvents instanceId entry⟩,
      r.removeEntry key entry)

def removeClient (r : SharedWorkerRegistry I) (clientId : SharedWorkerClientId) :
    SharedWorkerObservedAction (SharedWorkerClientRemoval I) × SharedWorkerRegistry I :=
  match r.clientKeys.lookup clientId with
  | none => (⟨.missing, []⟩, r)
  | some key =>
    let r := { r with clientKeys := r.clientKeys.erase clientId }
    match r.entries.lookup key with
    | none => (⟨.missing, []⟩, r)
    | some entry =>
      let ownerId := entry.clientOwnerId clientId
      let lastClientForOwner := ownerId.any fun ownerId => entry.clientCountForOwner ownerId = 1
      let ownerEvents := lastClientRemovedEvent entry.instanceId ownerId lastClientForOwner
      match entry.removeClient clientId with
      | (false, remaining) =>
        let action := match remaining.state with
          | .loading => .removedFromLoading entry.instanceId
          | .running instance' => .removedFromRunning entry.instanceId instance'
        (⟨action, ownerEvents⟩, { r with entries := r.entries.insert key remaining })
      | (true, remaining) =>
        let action := match remaining.state with
          | .loading => .cancelLoading entry.instanceId key
          | .running instance' => .terminate entry.instanceId key instance'
        (⟨action, ownerEvents⟩, { r with entries := r.entries.erase key })

def removed (key : SharedWorkerKey) (entry : SharedWorkerEntry I) :
    SharedWorkerObservedAction (SharedWorkerInstanceRemoval I) :=
  ⟨.removed key entry.instanceId entry.clientIds entry.state.instance?,
    lastClientRemovedEvents entry.instanceId entry⟩

def removeInstance (instanceId : SharedWorkerInstanceId) :
    SharedWorkerObservedAction (SharedWorkerInstanceRemoval I) × SharedWorkerRegistry I :=
  match r.entries.entries.find? (·.2.instanceId = instanceId) with
  | none => (⟨.missing, []⟩, r)
  | some ⟨key, entry⟩ => (removed key entry, r.removeEntry key entry)

def removeAllInstances :
    List (SharedWorkerObservedAction (SharedWorkerInstanceRemoval I)) × SharedWorkerRegistry I :=
  (r.entries.entries.map fun ⟨key, entry⟩ => removed key entry,
    { r with entries := ∅, clientKeys := ∅ })

/-! ## Queries -/

def findInstance (instanceId : SharedWorkerInstanceId) : Option (SharedWorkerEntry I) :=
  (r.entries.entries.map Sigma.snd).find? (·.instanceId = instanceId)

def clientCountForOwner (r : SharedWorkerRegistry I) (instanceId : SharedWorkerInstanceId)
    (ownerId : SharedWorkerClientOwnerId) : Nat :=
  (r.findInstance instanceId).elim 0 (·.clientCountForOwner ownerId)

end SharedWorkerRegistry

/-! ## Runs -/

inductive Op (I : Type) where
  | connect (key : SharedWorkerKey) (descriptor : SharedWorkerDescriptor)
      (clientOwnerId : Option SharedWorkerClientOwnerId)
  | finishLoading (key : SharedWorkerKey) (instanceId : SharedWorkerInstanceId) (instance' : I)
  | failLoading (key : SharedWorkerKey) (instanceId : SharedWorkerInstanceId)
  | removeClient (clientId : SharedWorkerClientId)
  | removeInstance (instanceId : SharedWorkerInstanceId)
  | removeAllInstances

/-- What a method returns. -/
inductive Output (I : Type) where
  | connected (observed : SharedWorkerObservedAction (SharedWorkerConnectAction I))
  | loadReady (ready : SharedWorkerLoadReady I)
  | loadFailed (observed : SharedWorkerObservedAction SharedWorkerLoadFailure)
  | clientRemoved (observed : SharedWorkerObservedAction (SharedWorkerClientRemoval I))
  | instanceRemoved (observed : SharedWorkerObservedAction (SharedWorkerInstanceRemoval I))
  | allRemoved (observed : List (SharedWorkerObservedAction (SharedWorkerInstanceRemoval I)))

def SharedWorkerRegistry.step (r : SharedWorkerRegistry I) :
    Op I → Except Fault (Output I × SharedWorkerRegistry I)
  | .connect key descriptor clientOwnerId => do
    let (observed, r) ← r.connect key descriptor clientOwnerId
    return (.connected observed, r)
  | .finishLoading key instanceId instance' =>
    let (ready, r) := r.finishLoading key instanceId instance'
    .ok (.loadReady ready, r)
  | .failLoading key instanceId =>
    let (observed, r) := r.failLoading key instanceId
    .ok (.loadFailed observed, r)
  | .removeClient clientId =>
    let (observed, r) := r.removeClient clientId
    .ok (.clientRemoved observed, r)
  | .removeInstance instanceId =>
    let (observed, r) := r.removeInstance instanceId
    .ok (.instanceRemoved observed, r)
  | .removeAllInstances =>
    let (observed, r) := r.removeAllInstances
    .ok (.allRemoved observed, r)

/-- A call and what it returned. -/
abbrev Label (I : Type) := Op I × Output I

def Step (r : SharedWorkerRegistry I) (label : Label I) (r' : SharedWorkerRegistry I) : Prop :=
  r.step label.1 = .ok (label.2, r')

/-! ## What a call announces -/

namespace Label

variable (label : Label I)

/-- The instances whose loading starts. -/
def started : List SharedWorkerInstanceId :=
  match label.2 with
  | .connected ⟨.startLoading instanceId _, _⟩ => [instanceId]
  | _ => []

/-- The instances that become running. -/
def ran : List SharedWorkerInstanceId :=
  match label.2 with
  | .loadReady (.running instanceId _ _) => [instanceId]
  | _ => []

def removedInstance :
    SharedWorkerObservedAction (SharedWorkerInstanceRemoval I) → List SharedWorkerInstanceId
  | ⟨.removed _ instanceId _ _, _⟩ => [instanceId]
  | ⟨.missing, _⟩ => []

/-- The instances that end. -/
def ended : List SharedWorkerInstanceId :=
  match label.2 with
  | .loadFailed ⟨.failed instanceId _, _⟩ => [instanceId]
  | .clientRemoved ⟨.cancelLoading instanceId _, _⟩ => [instanceId]
  | .clientRemoved ⟨.terminate instanceId _ _, _⟩ => [instanceId]
  | .instanceRemoved observed => removedInstance observed
  | .allRemoved observed => observed.flatMap removedInstance
  | _ => []

/-- The clients that `connect` accepts. -/
def accepted : List SharedWorkerClientId :=
  match label.2 with
  | .connected ⟨.startLoading _ clientId, _⟩ => [clientId]
  | .connected ⟨.queueWhileLoading _ clientId, _⟩ => [clientId]
  | .connected ⟨.connectToRunning _ clientId _, _⟩ => [clientId]
  | _ => []

def removedClients :
    SharedWorkerObservedAction (SharedWorkerInstanceRemoval I) → List SharedWorkerClientId
  | ⟨.removed _ _ clients _, _⟩ => clients
  | ⟨.missing, _⟩ => []

/-- The clients that leave. -/
def left : List SharedWorkerClientId :=
  match label with
  | (_, .loadFailed ⟨.failed _ clients, _⟩) => clients
  | (_, .clientRemoved ⟨.missing, _⟩) => []
  | (.removeClient clientId, .clientRemoved _) => [clientId]
  | (_, .instanceRemoved observed) => removedClients observed
  | (_, .allRemoved observed) => observed.flatMap removedClients
  | _ => []

def ownerEvents (label : Label I) : List SharedWorkerClientOwnerEvent :=
  match label.2 with
  | .connected observed => observed.ownerEvents
  | .loadReady _ => []
  | .loadFailed observed => observed.ownerEvents
  | .clientRemoved observed => observed.ownerEvents
  | .instanceRemoved observed => observed.ownerEvents
  | .allRemoved observed => observed.flatMap (·.ownerEvents)

/-- The events of one owner at one instance: `true` for its first client. -/
def signalOf (instanceId : SharedWorkerInstanceId) (ownerId : SharedWorkerClientOwnerId) :
    SharedWorkerClientOwnerEvent → Option Bool
  | .firstClientAdded i o => if i = instanceId ∧ o = ownerId then some true else none
  | .lastClientRemoved i o => if i = instanceId ∧ o = ownerId then some false else none

def signals (instanceId : SharedWorkerInstanceId) (ownerId : SharedWorkerClientOwnerId)
    (label : Label I) : List Bool :=
  label.ownerEvents.filterMap (signalOf instanceId ownerId)

/-- The call came too late. -/
def stale (label : Label I) : Prop :=
  match label.2 with
  | .loadReady .stale => True
  | .loadFailed ⟨.stale, _⟩ => True
  | .clientRemoved ⟨.missing, _⟩ => True
  | .instanceRemoved ⟨.missing, _⟩ => True
  | _ => False

end Label

end Moli.SharedWorker
