import Mathlib.Algebra.Order.Ring.Int

/-!
# Write-back of accepted changes

The owner of a database file in `moli-sqlite`: clients add batches to a pending one under a lock,
and a loop writes what is pending when a flush, a timer or the close asks for it. The functions on a
`Pending` are the sections under the lock; `Step` is one step of the loop, of a client, of the owner
or of the clock. The database is a state `σ` on which a batch acts; whether opening it, writing a
batch or closing it succeeds is left open. A call from the SQL executor itself is refused before it
does anything, as a call on a closed store is.
-/

namespace Moli.Writeback

structure WritebackError where
  message : String
deriving DecidableEq

abbrev Receipt := Except WritebackError Unit

class WriteBatch (β : Type) (σ : outParam Type) where
  empty : β
  isEmpty : β → Bool
  /-- The second batch is the newer one. -/
  merge : β → β → β
  write : β → σ → σ

structure WritebackPolicy where
  delay : Nat
  earlyCommitOperations : Option Nat

structure Pending (β : Type) where
  batch : β
  operations : Nat
  firstDirty : Option Nat
  failure : Option WritebackError
  closed : Bool

variable {β σ ρ : Type} [WriteBatch β σ]

namespace Pending

def start : Pending β := ⟨WriteBatch.empty, 0, none, none, false⟩

/-- The locked section of `accept`, for a batch that is not empty. -/
def accept (pending : Pending β) (batch : β) (now : Nat) : Pending β :=
  { pending with
    batch := WriteBatch.merge pending.batch batch
    operations := min (pending.operations + 1) (2 ^ 64 - 1)
    firstDirty := some (pending.firstDirty.getD now) }

/-- The locked section of `commit`, for a batch that is not empty. -/
def take (pending : Pending β) : Pending β :=
  { pending with batch := WriteBatch.empty, operations := 0, firstDirty := none }

def deadline (policy : WritebackPolicy) (now : Nat) (pending : Pending β) : Option Nat :=
  if policy.earlyCommitOperations.any (· ≤ pending.operations) then some now
  else pending.firstDirty.map (· + policy.delay)

def receipt (pending : Pending β) : Receipt :=
  match pending.failure with
  | none => .ok ()
  | some error => .error error

end Pending

inductive LazyConnection where
  | unopened
  | opened
  | failed (error : WritebackError)

namespace LazyConnection

/-- The connection after `get`, where `opening` is what comes of opening it. -/
def get (opening : Receipt) : LazyConnection → LazyConnection
  | unopened =>
    match opening with
    | .ok _ => opened
    | .error error => failed error
  | connection => connection

def failure : LazyConnection → Option WritebackError
  | failed error => some error
  | _ => none

/-- The answer of `get`. -/
def result (connection : LazyConnection) : Receipt :=
  match connection.failure with
  | none => .ok ()
  | some error => .error error

def close (closing : Receipt) : LazyConnection → Receipt
  | opened => closing
  | unopened => .ok ()
  | failed error => .error error

end LazyConnection

/-! ## Threads -/

inductive Message (σ ρ : Type) where
  | query (id : Nat) (run : σ → Except WritebackError ρ)
  | flush (id : Nat)
  | close

/-- What a commit was made for. -/
inductive Purpose where
  | timer
  | flush (id : Nat)
  | close
deriving DecidableEq

/-- Where `run`, and the task around it, stands. -/
inductive Loop (β σ ρ : Type) where
  | starting
  | selecting (deadline : Option Nat)
  | querying (id : Nat) (run : σ → Except WritebackError ρ)
  /-- The query has run: note whether the connection failed. -/
  | queried
  | committing (purpose : Purpose)
  | writing (batch : β) (purpose : Purpose)
  /-- The write has run: note whether it failed. -/
  | wrote (result : Receipt) (purpose : Purpose)
  | replying (id : Nat)
  | answering (id : Nat) (result : Receipt)
  | closing
  | closingConnection (result : Receipt)
  | returned (result : Receipt)
  | sealed (result : Receipt)
  | ended

namespace Loop

/-- The messages of the channel are still received. -/
def receives : Loop β σ ρ → Bool
  | returned _ | sealed _ | ended => false
  | _ => true

/-- The code after a commit. -/
def after : Purpose → Loop β σ ρ
  | .timer => starting
  | .flush id => replying id
  | .close => closing

end Loop

/-- Where the thread with the `WritebackOwner` stands, in `close` or in `drop`. -/
inductive Owner where
  | idle
  | sealing (dropping : Bool)
  | sending (dropping : Bool)
  | receiving (dropping : Bool)
  | closed (result : Receipt)
  | dropped

inductive Event (β ρ : Type) where
  | accepted (batch : β)
  /-- A commit takes the pending batch. -/
  | taken
  | opened (result : Receipt)
  | attempted (batch : β) (result : Receipt)
  | sentQuery (id : Nat)
  | repliedQuery (id : Nat) (result : Except WritebackError ρ)
  | sentFlush (id : Nat)
  | repliedFlush (id : Nat) (result : Receipt)
  /-- A call returns an error and is not sent. -/
  | refusedQuery
  | refusedFlush
  /-- The owner has closed admission. -/
  | sealed
  | closeReturned (result : Receipt)

structure System (β σ ρ : Type) where
  pending : Pending β
  /-- The permit of `changed`. -/
  changed : Bool
  queue : List (Message σ ρ)
  connection : LazyConnection
  disk : σ
  loop : Loop β σ ρ
  owner : Owner
  /-- What the task sent when it ended. -/
  finished : Option Receipt
  now : Nat
  /-- The number of queries and flushes that were sent. -/
  next : Nat
  log : List (Event β ρ)

namespace System

def start (disk : σ) : System β σ ρ :=
  ⟨.start, false, [], .unopened, disk, .starting, .idle, none, 0, 0, []⟩

variable (s : System β σ ρ)

/-- `send` on a channel whose receiver is gone has no effect. -/
def send (message : Message σ ρ) : List (Message σ ρ) :=
  if s.loop.receives then s.queue ++ [message] else s.queue

def accept (batch : β) : System β σ ρ :=
  if WriteBatch.isEmpty batch then s
  else { s with
    pending := s.pending.accept batch s.now, changed := true, log := s.log ++ [.accepted batch] }

def sendQuery (run : σ → Except WritebackError ρ) : System β σ ρ :=
  { s with
    queue := s.send (.query s.next run), next := s.next + 1, log := s.log ++ [.sentQuery s.next] }

def sendFlush : System β σ ρ :=
  { s with
    queue := s.send (.flush s.next), next := s.next + 1, log := s.log ++ [.sentFlush s.next] }

/-- The events of `get`. -/
def opening (result : Receipt) : List (Event β ρ) :=
  match s.connection with
  | .unopened => [.opened result]
  | _ => []

/-- The blocking part of a query. -/
def runQuery (opening : Receipt) (id : Nat) (run : σ → Except WritebackError ρ) : System β σ ρ :=
  let connection := s.connection.get opening
  { s with
    connection := connection
    loop := .queried
    log := s.log ++ s.opening opening ++
      [.repliedQuery id (connection.result.bind fun _ => run s.disk)] }

/-- The blocking part of a commit. A failed write changes nothing. -/
def write (opening outcome : Receipt) (batch : β) (purpose : Purpose) : System β σ ρ :=
  let connection := s.connection.get opening
  let result := connection.result.bind fun _ => outcome
  { s with
    connection := connection
    disk := if result.isOk then WriteBatch.write batch s.disk else s.disk
    loop := .wrote result purpose
    log := s.log ++ s.opening opening ++ [.attempted batch result] }

end System

/-- A step of the loop. -/
inductive LoopStep (policy : WritebackPolicy) : System β σ ρ → System β σ ρ → Prop where
  | start {s : System β σ ρ} (h : s.loop = .starting) :
      LoopStep policy s { s with loop := .selecting (s.pending.deadline policy s.now) }
  | notified {s : System β σ ρ} {deadline : Option Nat} (h : s.loop = .selecting deadline)
      (hchanged : s.changed = true) :
      LoopStep policy s { s with loop := .starting, changed := false }
  | timer {s : System β σ ρ} {deadline : Nat} (h : s.loop = .selecting (some deadline))
      (hnow : deadline ≤ s.now) : LoopStep policy s { s with loop := .committing .timer }
  | recvQuery {s : System β σ ρ} {deadline : Option Nat} {id : Nat}
      {run : σ → Except WritebackError ρ} {queue : List (Message σ ρ)}
      (h : s.loop = .selecting deadline) (hqueue : s.queue = .query id run :: queue) :
      LoopStep policy s { s with loop := .querying id run, queue := queue }
  | recvFlush {s : System β σ ρ} {deadline : Option Nat} {id : Nat} {queue : List (Message σ ρ)}
      (h : s.loop = .selecting deadline) (hqueue : s.queue = .flush id :: queue) :
      LoopStep policy s { s with loop := .committing (.flush id), queue := queue }
  /-- The owner sends `Close` before its sender goes, so the channel is never found disconnected. -/
  | recvClose {s : System β σ ρ} {deadline : Option Nat} {queue : List (Message σ ρ)}
      (h : s.loop = .selecting deadline) (hqueue : s.queue = .close :: queue) :
      LoopStep policy s { s with loop := .committing .close, queue := queue }
  | runQuery {s : System β σ ρ} {id : Nat} {run : σ → Except WritebackError ρ}
      (h : s.loop = .querying id run) (opening : Receipt) :
      LoopStep policy s (s.runQuery opening id run)
  | queried {s : System β σ ρ} (h : s.loop = .queried) :
      LoopStep policy s { s with
        loop := .starting
        pending := { s.pending with failure := s.connection.failure.or s.pending.failure } }
  | skip {s : System β σ ρ} {purpose : Purpose} (h : s.loop = .committing purpose)
      (hempty : WriteBatch.isEmpty s.pending.batch = true) :
      LoopStep policy s { s with loop := .after purpose }
  | take {s : System β σ ρ} {purpose : Purpose} (h : s.loop = .committing purpose)
      (hempty : WriteBatch.isEmpty s.pending.batch = false) :
      LoopStep policy s { s with
        loop := .writing s.pending.batch purpose, pending := s.pending.take
        log := s.log ++ [.taken] }
  | write {s : System β σ ρ} {batch : β} {purpose : Purpose} (h : s.loop = .writing batch purpose)
      (opening outcome : Receipt) : LoopStep policy s (s.write opening outcome batch purpose)
  | wrote {s : System β σ ρ} {result : Receipt} {purpose : Purpose}
      (h : s.loop = .wrote result purpose) : LoopStep policy s { s with
        loop := .after purpose
        pending := { s.pending with failure := match result with
          | .ok _ => none
          | .error error => some error } }
  | reply {s : System β σ ρ} {id : Nat} (h : s.loop = .replying id) :
      LoopStep policy s { s with loop := .answering id s.pending.receipt }
  | answer {s : System β σ ρ} {id : Nat} {result : Receipt} (h : s.loop = .answering id result) :
      LoopStep policy s { s with loop := .starting, log := s.log ++ [.repliedFlush id result] }
  | closing {s : System β σ ρ} (h : s.loop = .closing) :
      LoopStep policy s { s with loop := .closingConnection s.pending.receipt }
  /-- The connection is closed; the receiver goes when `run` returns. -/
  | closeConnection {s : System β σ ρ} {result : Receipt} (h : s.loop = .closingConnection result)
      (closing : Receipt) :
      LoopStep policy s { s with
        loop := .returned (result.bind fun _ => s.connection.close closing), queue := [] }
  | returned {s : System β σ ρ} {result : Receipt} (h : s.loop = .returned result) :
      LoopStep policy s { s with
        loop := .sealed result
        pending := { s.pending with
          closed := true
          failure := match result with
            | .ok _ => s.pending.failure
            | .error error => some error } }
  | finish {s : System β σ ρ} {result : Receipt} (h : s.loop = .sealed result) :
      LoopStep policy s { s with loop := .ended, finished := some result }

/-- A step of a client. `record` is `accept` with a batch that is already there. -/
inductive ClientStep : System β σ ρ → System β σ ρ → Prop where
  | accept {s : System β σ ρ} (batch : β) (h : s.pending.closed = false) : ClientStep s
    (s.accept batch)
  | query {s : System β σ ρ} (run : σ → Except WritebackError ρ) (h : s.pending.closed = false)
      (hreceives : s.loop.receives = true) : ClientStep s (s.sendQuery run)
  | flush {s : System β σ ρ} (h : s.pending.closed = false) (hreceives : s.loop.receives = true) :
      ClientStep s s.sendFlush
  | refuseQuery {s : System β σ ρ} (h : s.pending.closed = true ∨ s.loop.receives = false) :
      ClientStep s { s with log := s.log ++ [.refusedQuery] }
  | refuseFlush {s : System β σ ρ} (h : s.pending.closed = true ∨ s.loop.receives = false) :
      ClientStep s { s with log := s.log ++ [.refusedFlush] }

/-- A step of the thread that closes or drops the owner. -/
inductive OwnerStep : System β σ ρ → System β σ ρ → Prop where
  | close {s : System β σ ρ} (h : s.owner = .idle) : OwnerStep s { s with owner := .sealing false }
  /-- A later `close` returns the result of the first. -/
  | closeAgain {s : System β σ ρ} {result : Receipt} (h : s.owner = .closed result) :
      OwnerStep s { s with log := s.log ++ [.closeReturned result] }
  | drop {s : System β σ ρ} (h : s.owner = .idle ∨ ∃ result, s.owner = .closed result) :
      OwnerStep s { s with owner := .sealing true }
  | sealAdmission {s : System β σ ρ} {dropping : Bool} (h : s.owner = .sealing dropping) :
      OwnerStep s { s with
        owner := .sending dropping
        pending := { s.pending with closed := true }
        log := s.log ++ [.sealed] }
  | sendClose {s : System β σ ρ} {dropping : Bool} (h : s.owner = .sending dropping) :
      OwnerStep s { s with owner := .receiving dropping, queue := s.send .close }
  | recv {s : System β σ ρ} {result : Receipt} (h : s.owner = .receiving false)
      (hfinished : s.finished = some result) :
      OwnerStep s { s with owner := .closed result, log := s.log ++ [.closeReturned result] }
  /-- `drop` waits for the receipt unless that was taken or it runs on the executor. -/
  | dropped {s : System β σ ρ} (h : s.owner = .receiving true) : OwnerStep s
    { s with owner := .dropped }

inductive Step (policy : WritebackPolicy) : System β σ ρ → System β σ ρ → Prop where
  | loop {s s' : System β σ ρ} (h : LoopStep policy s s') : Step policy s s'
  | client {s s' : System β σ ρ} (h : ClientStep s s') : Step policy s s'
  | owner {s s' : System β σ ρ} (h : OwnerStep s s') : Step policy s s'
  | tick {s : System β σ ρ} : Step policy s { s with now := s.now + 1 }

end Moli.Writeback
