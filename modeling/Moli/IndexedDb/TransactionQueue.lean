import Moli.IndexedDb.Types
import Moli.Lib.Machine

/-!
# Admission of transactions

The per-database request queues of `transaction_queue.rs`. A request has a status cell that outlives
its queue entry, so cells live in the world (`World.status`) and not in the entries. Every method
runs its locked section in one step. What it does after it has released the lock, marking requests
canceled and calling their wake callbacks, is kept as `Callbacks` of that call and run one action at
a time, so that the calls of different threads interleave (`Op.resume`). The callbacks that were
called and the successful starts are logged in `World.woken` and `World.started`.

A handle is given by its database key and its request id; its weak reference to the queues is
taken to be alive.
-/

namespace Moli.IndexedDb

open Lib

inductive TransactionRequestStatus where
  | pending
  | ready
  | started
  | canceled
  | finished
deriving DecidableEq

/-- Storage key and database name. -/
abbrev DatabaseKey := String × String

def DatabaseKey.cmp : DatabaseKey → DatabaseKey → Ordering :=
  compareLex (compareOn Prod.fst) (compareOn Prod.snd)

instance : Std.TransCmp DatabaseKey.cmp :=
  inferInstanceAs (Std.TransCmp (compareLex _ _))

instance : Std.LawfulEqCmp DatabaseKey.cmp where
  eq_of_compare {a b} h := by
    simp only [DatabaseKey.cmp, compareLex, Ordering.then_eq_eq, compareOn] at h
    exact Prod.ext (Std.LawfulEqCmp.eq_of_compare h.1) (Std.LawfulEqCmp.eq_of_compare h.2)

namespace TransactionQueue

structure TransactionScope where
  stores : Finset IndexedDbName
  mode : TransactionMode

def TransactionScope.conflictsWith (self other : TransactionScope) : Bool :=
  self.mode = .versionChange
    || other.mode = .versionChange
    || (self.mode ≠ .readOnly && other.mode ≠ .readOnly)
    || ((self.mode ≠ .readOnly || other.mode ≠ .readOnly)
      && !decide (Disjoint self.stores other.stores))

structure QueuedRequest where
  id : Nat
  database : DatabaseHandle
  scope : TransactionScope

/-- What a call still has to do without the lock: requests to mark canceled, then callbacks. -/
structure Callbacks where
  cancels : List Nat
  wakes : List Nat

/-- The status cells of the requests, by id. -/
abbrev StatusCells := Nat → Option TransactionRequestStatus

def StatusCells.set (cells : StatusCells) (id : Nat) (status : TransactionRequestStatus) :
    StatusCells :=
  Function.update cells id (some status)

structure World where
  nextId : Nat
  queues : Std.TreeMap DatabaseKey (List QueuedRequest) DatabaseKey.cmp
  status : StatusCells
  calls : List Callbacks
  woken : List Nat
  started : List (DatabaseKey × QueuedRequest)

def World.init : World where
  nextId := 0
  queues := ∅
  status := fun _ => none
  calls := []
  woken := []
  started := []

/-! ## The queue operations -/

/-- Some older entry is in conflict with the request. -/
def blockedBy (older : List QueuedRequest) (scope : TransactionScope) : Bool :=
  older.any fun entry => scope.conflictsWith entry.scope

/-- The scan over the entries behind `older`, which collects the callbacks of requests that became
ready. -/
def wakeNewlyReady (older : List QueuedRequest) :
    List QueuedRequest → StatusCells → List Nat → StatusCells × List Nat
  | [], cells, wakes => (cells, wakes)
  | entry :: rest, cells, wakes =>
    if cells entry.id = some .pending ∧ blockedBy older entry.scope = false then
      wakeNewlyReady (older ++ [entry]) rest (cells.set entry.id .ready) (wakes ++ [entry.id])
    else wakeNewlyReady (older ++ [entry]) rest cells wakes

namespace World

variable (w : World)

/-- The queue of a database, empty if there is none. -/
def queue (key : DatabaseKey) : List QueuedRequest := w.queues[key]?.getD []

/-- The call has left its locked section with these actions. -/
def defer (cancels wakes : List Nat) : World :=
  { w with calls := w.calls ++ [⟨cancels, wakes⟩] }

def enqueue (w : World) (key : DatabaseKey) (database : DatabaseHandle)
    (stores : Finset IndexedDbName) (mode : TransactionMode) : World :=
  -- `checked_add(1)`; the call panics before it changes anything.
  if 2 ^ 64 ≤ w.nextId + 1 then w
  else
    let scope : TransactionScope := ⟨stores, mode⟩
    let id := w.nextId + 1
    let ready := !blockedBy (w.queue key) scope
    { w with
      nextId := id
      queues := w.queues.insert key (w.queue key ++ [⟨id, database, scope⟩])
      status := w.status.set id (if ready then .ready else .pending) }

def cancelDatabase (origin name : String) : World :=
  match w.queues[(origin, name)]? with
  | none => w
  | some queue =>
    { w with queues := w.queues.erase (origin, name) }.defer
      (queue.map QueuedRequest.id) (queue.map QueuedRequest.id)

/-- The inner `retain` of `cancel_connections`: its effects on one queue. -/
def cancelEntries (databases : List DatabaseHandle) :
    List QueuedRequest → StatusCells → List Nat → StatusCells × List Nat
  | [], cells, wakes => (cells, wakes)
  | entry :: rest, cells, wakes =>
    if entry.database ∈ databases then
      cancelEntries databases rest (cells.set entry.id .canceled) (wakes ++ [entry.id])
    else cancelEntries databases rest cells wakes

/-- The entries of a queue that stay. -/
def retained (databases : List DatabaseHandle) (queue : List QueuedRequest) : List QueuedRequest :=
  queue.filter fun entry => entry.database ∉ databases

/-- The outer `retain` of `cancel_connections` at one queue. -/
def cancelQueue (databases : List DatabaseHandle) (effects : StatusCells × List Nat)
    (queue : List QueuedRequest) : StatusCells × List Nat :=
  let (cells, wakes) := cancelEntries databases queue effects.1 effects.2
  let kept := retained databases queue
  if queue.length ≠ kept.length then wakeNewlyReady [] kept cells wakes else (cells, wakes)

def cancelConnections (databases : List DatabaseHandle) : World :=
  let effects := w.queues.toList.foldl (fun effects entry => cancelQueue databases effects entry.2)
    (w.status, [])
  { w with
    queues := w.queues.filterMap fun _ queue =>
      let kept := retained databases queue
      if kept.isEmpty then none else some kept
    status := effects.1 }.defer [] effects.2

def cancelConnection (database : DatabaseHandle) : World :=
  w.cancelConnections [database]

/-- Whether the start was granted. -/
def claimStart (key : DatabaseKey) (id : Nat) : Bool × World :=
  match (w.queue key).find? (fun entry => entry.id = id) with
  | none => (false, w)
  | some entry =>
    if w.status entry.id ≠ some .ready then (false, w)
    else
      (true, { w with
        status := w.status.set entry.id .started
        started := w.started ++ [(key, entry)] })

inductive Release where
  | leaseDropped
  | backendFinished
deriving DecidableEq

def release (w : World) (key : DatabaseKey) (id : Nat) (release : Release) : World :=
  match w.queues[key]? with
  | none => w
  | some queue =>
    match queue.findIdx? (fun entry => entry.id = id) with
    | none => w
    | some index =>
      if release = .leaseDropped ∧ w.status id = some .started then w
      else
        let rest := queue.eraseIdx index
        let (cells, wakes) := wakeNewlyReady [] rest (w.status.set id .finished) []
        { w with
          queues := if rest.isEmpty then w.queues.erase key else w.queues.insert key rest
          status := cells }.defer [] wakes

def finish (key : DatabaseKey) (id : Nat) : World := w.release key id .backendFinished

def dropLease (key : DatabaseKey) (id : Nat) : World := w.release key id .leaseDropped

/-- The thread of an earlier call runs its next action outside the lock. -/
def resume (call : Nat) : World :=
  match w.calls[call]? with
  | none => w
  | some ⟨id :: cancels, wakes⟩ =>
    { w with status := w.status.set id .canceled, calls := w.calls.set call ⟨cancels, wakes⟩ }
  | some ⟨[], id :: wakes⟩ =>
    { w with woken := w.woken ++ [id], calls := w.calls.set call ⟨[], wakes⟩ }
  | some ⟨[], []⟩ => w

end World

/-! ## Runs -/

inductive Op where
  | enqueue (key : DatabaseKey) (database : DatabaseHandle) (stores : Finset IndexedDbName)
      (mode : TransactionMode)
  | claimStart (key : DatabaseKey) (id : Nat)
  | finish (key : DatabaseKey) (id : Nat)
  | dropLease (key : DatabaseKey) (id : Nat)
  | cancelConnection (database : DatabaseHandle)
  | cancelDatabase (origin name : String)
  | resume (call : Nat)

def World.step (w : World) : Op → World
  | .enqueue key database stores mode => w.enqueue key database stores mode
  | .claimStart key id => (w.claimStart key id).2
  | .finish key id => w.finish key id
  | .dropLease key id => w.dropLease key id
  | .cancelConnection database => w.cancelConnection database
  | .cancelDatabase origin name => w.cancelDatabase origin name
  | .resume call => w.resume call

/-- The queues from the empty state, under any interleaving of calls. -/
def transactionQueues : Machine World Op := ⟨World.init, World.step⟩

end TransactionQueue

end Moli.IndexedDb
