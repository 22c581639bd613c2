import Mathlib.Algebra.Order.Ring.Int
import Mathlib.Data.List.DropRight
import Mathlib.Data.Multiset.Bind
import Moli.Lib.Assoc
import Moli.Lib.SortedMap

/-!
# The DNS resolver service

The locked state of `moli-dns-resolver` is its positive cache and the lookups in flight. Instants
are natural numbers, and a completion is known by the number of the `resolve` call it was passed to.

`Step` is one step of the service: a locked section, a message sent or received, or the call of a
completion. The calls of `resolve` that have not returned and the workers are known by what they do
next. A completion may call `resolve` again at any time, on any thread. The log records what
happened.
-/

namespace Moli.Dns

open Lib

inductive IpAddr where
  | v4 (bits : BitVec 32)
  | v6 (bits : BitVec 128)
deriving DecidableEq

abbrev Addresses := List IpAddr

abbrev DnsLookupResult := Except String Addresses

structure DnsTarget where
  host : String
  port : Nat
deriving DecidableEq

structure DnsLookupKey where
  partition : Nat
  target : DnsTarget
deriving DecidableEq

abbrev Instant := Nat

abbrev DnsCompletion := Nat

/-! ## Positive cache -/

structure DnsCachedAnswer where
  addresses : Addresses
  expiresAt : Instant

abbrev Answers := AList fun _ : DnsLookupKey => DnsCachedAnswer

structure DnsPositiveCache where
  answers : Answers
  expirations : SortedMap Instant (List DnsLookupKey)

namespace DnsPositiveCache

def empty : DnsPositiveCache := ⟨∅, .empty⟩

/-- An answer goes if its own deadline has passed. -/
def retire (now : Instant) (answers : Answers) (key : DnsLookupKey) : Answers :=
  if (answers.lookup key).any (·.expiresAt ≤ now) then answers.erase key else answers

def retireExpired (cache : DnsPositiveCache) (now : Instant) : DnsPositiveCache where
  answers := ((cache.expirations.entries.takeWhile (·.1 ≤ now)).flatMap (·.2)).foldl (retire now)
    cache.answers
  expirations :=
    ⟨cache.expirations.entries.dropWhile (·.1 ≤ now),
      cache.expirations.sorted.sublist (List.dropWhile_sublist _)⟩

def get (cache : DnsPositiveCache) (key : DnsLookupKey) (now : Instant) :
    Option Addresses × DnsPositiveCache :=
  let cache := cache.retireExpired now
  match cache.answers.lookup key with
  | none => (none, cache)
  | some answer =>
    if answer.expiresAt ≤ now then (none, { cache with answers := cache.answers.erase key })
    else (some answer.addresses, cache)

def insert (cache : DnsPositiveCache) (key : DnsLookupKey) (addresses : Addresses)
    (expiresAt : Instant) : DnsPositiveCache where
  answers := cache.answers.insert key ⟨addresses, expiresAt⟩
  expirations := cache.expirations.insert expiresAt
    ((cache.expirations.find expiresAt).getD [] ++ [key])

end DnsPositiveCache

/-! ## Lookups in flight -/

structure DnsResolverState where
  cache : DnsPositiveCache
  inFlight : AList fun _ : DnsLookupKey => List DnsCompletion

inductive DnsLookupAdmission where
  | completeCached (addresses : Addresses) (completion : DnsCompletion)
  | coalesced
  | start (key : DnsLookupKey)

namespace DnsResolverState

def empty : DnsResolverState := ⟨.empty, ∅⟩

def admitLookup (state : DnsResolverState) (key : DnsLookupKey) (completion : DnsCompletion)
    (now : Instant) : DnsLookupAdmission × DnsResolverState :=
  match state.cache.get key now with
  | (some addresses, cache) => (.completeCached addresses completion, { state with cache := cache })
  | (none, cache) =>
    match state.inFlight.lookup key with
    | some completions =>
      (.coalesced, ⟨cache, state.inFlight.insert key (completions ++ [completion])⟩)
    | none => (.start key, ⟨cache, state.inFlight.insert key [completion]⟩)

def finish (state : DnsResolverState) (key : DnsLookupKey) (result : DnsLookupResult)
    (expiresAt : Instant) : List DnsCompletion × DnsResolverState :=
  ((state.inFlight.lookup key).getD [],
    { inFlight := state.inFlight.erase key
      cache := match result with
        | .ok addresses => state.cache.insert key addresses expiresAt
        | .error _ => state.cache })

end DnsResolverState

/-! ## Reserved targets -/

def targetIsReservedInvalid (target : DnsTarget) : Bool :=
  let host := target.host.toList.rdropWhile (· == '.')
  let isText (text : List Char) (name : String) := text.map Char.toLower == name.toList
  isText host "invalid" || isText (host.drop (host.length - 8)) ".invalid"

def reservedError (target : DnsTarget) : String :=
  "failed to resolve " ++ target.host ++ ":" ++ toString target.port ++ ": reserved .invalid domain"

/-! ## The service -/

inductive DnsWorkerCommand where
  | resolve (key : DnsLookupKey)
  | shutdown

/-- What a call of `resolve` does next. -/
inductive Call where
  | invoking (completion : DnsCompletion) (result : DnsLookupResult)
  | sending (key : DnsLookupKey)
  /-- The queue is closed; the error is to be published. -/
  | refused (key : DnsLookupKey)
  | publishing (result : DnsLookupResult) (completions : List DnsCompletion)

/-- What a worker does next. -/
inductive Worker where
  | idle
  | looking (key : DnsLookupKey)
  | publishing (result : DnsLookupResult) (completions : List DnsCompletion)
  | stopped

inductive Event where
  | rejected (completion : DnsCompletion) (target : DnsTarget)
  /-- A call is answered from the cache, or joins the lookup of its key. -/
  | admitted (completion : DnsCompletion) (key : DnsLookupKey) (now : Instant)
      (cached : Option Addresses)
  | refused (key : DnsLookupKey)
  | finished (key : DnsLookupKey) (result : DnsLookupResult) (expiresAt : Instant)
  | invoked (completion : DnsCompletion) (result : DnsLookupResult)

structure Service where
  now : Instant
  state : DnsResolverState
  queue : List DnsWorkerCommand
  workers : Multiset Worker
  calls : Multiset Call
  /-- The number of calls of `resolve` so far. -/
  next : DnsCompletion
  log : List Event

namespace Service

def start (workerCount : Nat) (now : Instant) : Service where
  now := now
  state := .empty
  queue := []
  workers := .replicate workerCount .idle
  calls := 0
  next := 0
  log := []

def closed (s : Service) : Prop := ∀ w ∈ s.workers, w = .stopped

def shuttingDown : DnsLookupResult := .error "shared DNS resolver is shutting down"

/-- What the call does after its admission. -/
def afterAdmission : DnsLookupAdmission → Multiset Call
  | .completeCached addresses completion => {.invoking completion (.ok addresses)}
  | .coalesced => 0
  | .start key => {.sending key}

def cachedBy : DnsLookupAdmission → Option Addresses
  | .completeCached addresses _ => some addresses
  | .coalesced => none
  | .start _ => none

def admitCall (s : Service) (key : DnsLookupKey) : Service :=
  let result := s.state.admitLookup key s.next s.now
  { s with
    state := result.2
    calls := afterAdmission result.1 + s.calls
    next := s.next + 1
    log := s.log ++ [.admitted s.next key s.now (cachedBy result.1)] }

/-- The locked part of a publication, and the completions it takes out. -/
def finishLookup (ttl : Nat) (s : Service) (key : DnsLookupKey) (result : DnsLookupResult) :
    List DnsCompletion × Service :=
  let finished := s.state.finish key result (s.now + ttl)
  (finished.1, { s with
    state := finished.2
    log := s.log ++ [.finished key result (s.now + ttl)] })

def invoke (s : Service) (completion : DnsCompletion) (result : DnsLookupResult) : Service :=
  { s with log := s.log ++ [.invoked completion result] }

inductive Label where
  | tick
  | reject
  | admission
  | send
  | publish
  | invoke
  | receive
  | thread

/-- The labels of the steps that hold the lock of the state. -/
def Label.locked : Label → Bool
  | .admission => true
  | .publish => true
  | _ => false

inductive Step (ttl : Nat) : Service → Label → Service → Prop where
  | tick {s : Service} (elapsed : Nat) : Step ttl s .tick { s with now := s.now + elapsed }
  | reject {s : Service} (key : DnsLookupKey) (h : targetIsReservedInvalid key.target = true) :
      Step ttl s .reject { s with
        calls := .invoking s.next (.error (reservedError key.target)) ::ₘ s.calls
        next := s.next + 1
        log := s.log ++ [.rejected s.next key.target] }
  | admission {s : Service} (key : DnsLookupKey) (h : targetIsReservedInvalid key.target = false) :
      Step ttl s .admission (s.admitCall key)
  | send {s : Service} {key : DnsLookupKey} {rest : Multiset Call}
      (h : s.calls = .sending key ::ₘ rest) (hopen : ¬ s.closed) :
      Step ttl s .send { s with calls := rest, queue := s.queue ++ [.resolve key] }
  | sendRefused {s : Service} {key : DnsLookupKey} {rest : Multiset Call}
      (h : s.calls = .sending key ::ₘ rest) (hclosed : s.closed) :
      Step ttl s .send { s with calls := .refused key ::ₘ rest, log := s.log ++ [.refused key] }
  | publishRefused {s : Service} {key : DnsLookupKey} {rest : Multiset Call}
      (h : s.calls = .refused key ::ₘ rest) :
      Step ttl s .publish { (s.finishLookup ttl key shuttingDown).2 with
        calls := .publishing shuttingDown (s.finishLookup ttl key shuttingDown).1 ::ₘ rest }
  | invokeCall {s : Service} {completion : DnsCompletion} {result : DnsLookupResult}
      {rest : Multiset Call} (h : s.calls = .invoking completion result ::ₘ rest) :
      Step ttl s .invoke { s.invoke completion result with calls := rest }
  | invokePublished {s : Service} {completion : DnsCompletion} {completions : List DnsCompletion}
      {result : DnsLookupResult} {rest : Multiset Call}
      (h : s.calls = .publishing result (completion :: completions) ::ₘ rest) :
      Step ttl s .invoke { s.invoke completion result with
        calls := .publishing result completions ::ₘ rest }
  | returned {s : Service} {result : DnsLookupResult} {rest : Multiset Call}
      (h : s.calls = .publishing result [] ::ₘ rest) : Step ttl s .thread { s with calls := rest }
  | receive {s : Service} {key : DnsLookupKey} {queue : List DnsWorkerCommand}
    {rest : Multiset Worker}
      (h : s.workers = .idle ::ₘ rest) (hqueue : s.queue = .resolve key :: queue) :
      Step ttl s .receive { s with workers := .looking key ::ₘ rest, queue := queue }
  | receiveShutdown {s : Service} {queue : List DnsWorkerCommand} {rest : Multiset Worker}
      (h : s.workers = .idle ::ₘ rest) (hqueue : s.queue = .shutdown :: queue) :
      Step ttl s .receive { s with workers := .stopped ::ₘ rest, queue := queue }
  | publish {s : Service} {key : DnsLookupKey} {rest : Multiset Worker} (result : DnsLookupResult)
      (h : s.workers = .looking key ::ₘ rest) :
      Step ttl s .publish { (s.finishLookup ttl key result).2 with
        workers := .publishing result (s.finishLookup ttl key result).1 ::ₘ rest }
  | invokeLooked {s : Service} {completion : DnsCompletion} {completions : List DnsCompletion}
      {result : DnsLookupResult} {rest : Multiset Worker}
      (h : s.workers = .publishing result (completion :: completions) ::ₘ rest) :
      Step ttl s .invoke { s.invoke completion result with
        workers := .publishing result completions ::ₘ rest }
  | looked {s : Service} {result : DnsLookupResult} {rest : Multiset Worker}
      (h : s.workers = .publishing result [] ::ₘ rest) :
      Step ttl s .thread { s with workers := .idle ::ₘ rest }
  /-- The pool is dropped. -/
  | stop {s : Service} : Step ttl s .thread { s with
      queue := s.queue ++ .replicate (Multiset.card s.workers) .shutdown }

end Service

end Moli.Dns
