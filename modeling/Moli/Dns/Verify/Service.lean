import Mathlib.Data.Multiset.Range
import Mathlib.Tactic.Abel
import Moli.Lib.Trace
import Moli.Dns.Service

/-!
# Shared DNS lookups

Every caller is answered once, with what a `Ledger` of the log says is due to it (`answers_due`).
The ledger is the abstract resolver: who waits for the lookup of a key, what the latest successful
lookup of a key was, and what is due to a caller since its key's lookup was finished.
-/

namespace Moli.Dns

open Lib Multiset

/-! ## Cache -/

namespace DnsPositiveCache

variable {answers answers' : Answers} {now : Instant} {key k : DnsLookupKey}

/-- Nothing changed but that expired answers may be gone. -/
def Retired (now : Instant) (answers answers' : Answers) : Prop :=
  ∀ k, answers'.lookup k = answers.lookup k ∨
    answers'.lookup k = none ∧ ∃ answer ∈ answers.lookup k, answer.expiresAt ≤ now

theorem retired_erase {answer : DnsCachedAnswer} (hanswer : answers.lookup key = some answer)
    (hle : answer.expiresAt ≤ now) : Retired now answers (answers.erase key) := by
  intro k
  by_cases hk : k = key
  · rw [hk, AList.lookup_erase]
    exact .inr ⟨rfl, answer, hanswer, hle⟩
  · rw [AList.lookup_erase_ne hk]
    exact .inl rfl

theorem retired_retire : Retired now answers (retire now answers key) := by
  unfold retire
  cases hanswer : answers.lookup key with
  | none => exact fun k => .inl rfl
  | some answer =>
    split_ifs with hle
    · exact retired_erase hanswer (by simpa using hle)
    · exact fun k => .inl rfl

theorem Retired.trans {answers'' : Answers} (h : Retired now answers answers')
    (h' : Retired now answers' answers'') : Retired now answers answers'' := by
  intro k
  rcases h' k with heq | ⟨hnone, answer, hanswer, hle⟩
  · rw [heq]
    exact h k
  · rcases h k with heq | hgone
    · exact .inr ⟨hnone, answer, heq ▸ hanswer, hle⟩
    · exact .inr ⟨hnone, hgone.2⟩

theorem retired_foldl (keys : List DnsLookupKey) :
    Retired now answers (keys.foldl (retire now) answers) := by
  induction keys generalizing answers with
  | nil => exact fun k => .inl rfl
  | cons key keys ih => exact retired_retire.trans ih

/-- A lookup finds exactly the unexpired answer of its key. -/
theorem get_spec (cache : DnsPositiveCache) (key : DnsLookupKey) (now : Instant) :
    (cache.get key now).1 =
        ((cache.answers.lookup key).filter (now < ·.expiresAt)).map (·.addresses) ∧
      Retired now cache.answers (cache.get key now).2.answers := by
  have hretired : Retired now cache.answers (cache.retireExpired now).answers := retired_foldl _
  unfold get
  dsimp only
  cases hanswer : (cache.retireExpired now).answers.lookup key with
  | none =>
    refine ⟨?_, hretired⟩
    rcases hretired key with heq | ⟨-, answer, hmem, hle⟩
    · rw [← heq, hanswer]
      rfl
    · rw [Option.mem_def.1 hmem, Option.filter_some, if_neg (by simpa using hle)]
      rfl
  | some answer =>
    have hold : cache.answers.lookup key = some answer := by
      rcases hretired key with heq | hgone
      · rw [← heq, hanswer]
      · rw [hgone.1] at hanswer
        cases hanswer
    rw [hold, Option.filter_some]
    dsimp only
    split_ifs with hle hlt hlt
    · exact absurd (of_decide_eq_true hlt) hle.not_gt
    · exact ⟨rfl, hretired.trans (retired_erase hanswer hle)⟩
    · exact ⟨rfl, hretired⟩
    · exact absurd (decide_eq_true (not_le.1 hle)) hlt

end DnsPositiveCache

/-! ## The abstract resolver -/

structure Ledger where
  /-- The callers that wait for the lookup of a key. -/
  waiting : DnsLookupKey → List DnsCompletion
  due : List (DnsCompletion × DnsLookupResult)
  /-- The latest successful lookup of a key. -/
  latest : DnsLookupKey → Option DnsCachedAnswer
  /-- The lookup of a key that goes on found the queue closed. -/
  refused : DnsLookupKey → Bool

namespace Ledger

def empty : Ledger where
  waiting _ := []
  due := []
  latest _ := none
  refused _ := false

def latestAfter (expiresAt : Instant) (old : Option DnsCachedAnswer) :
    DnsLookupResult → Option DnsCachedAnswer
  | .ok addresses => some ⟨addresses, expiresAt⟩
  | .error _ => old

def record (ledger : Ledger) : Event → Ledger
  | .rejected completion target =>
    { ledger with due := ledger.due ++ [(completion, .error (reservedError target))] }
  | .admitted completion _ _ (some addresses) =>
    { ledger with due := ledger.due ++ [(completion, .ok addresses)] }
  | .admitted completion key _ none =>
    { ledger with
      waiting := Function.update ledger.waiting key (ledger.waiting key ++ [completion]) }
  | .refused key => { ledger with refused := Function.update ledger.refused key true }
  | .finished key result expiresAt =>
    { waiting := Function.update ledger.waiting key []
      due := ledger.due ++ (ledger.waiting key).map fun completion => (completion, result)
      latest := Function.update ledger.latest key (latestAfter expiresAt (ledger.latest key) result)
      refused := Function.update ledger.refused key false }
  | .invoked _ _ => ledger

def ofLog (log : List Event) : Ledger := log.foldl record empty

theorem ofLog_concat (log : List Event) (event : Event) :
    ofLog (log ++ [event]) = (ofLog log).record event := by
  rw [ofLog, List.foldl_append]
  rfl

end Ledger

open Ledger (record ofLog)

/-! ## What is under way -/

def Call.tokens : Call → Multiset DnsLookupKey
  | invoking _ _ => 0
  | sending key => {key}
  | refused key => {key}
  | publishing _ _ => 0

def Call.pending : Call → Multiset (DnsCompletion × DnsLookupResult)
  | invoking completion result => {(completion, result)}
  | sending _ => 0
  | refused _ => 0
  | publishing result completions => ↑(completions.map fun completion => (completion, result))

def Worker.tokens : Worker → Multiset DnsLookupKey
  | idle => 0
  | looking key => {key}
  | publishing _ _ => 0
  | stopped => 0

def Worker.pending : Worker → Multiset (DnsCompletion × DnsLookupResult)
  | publishing result completions => ↑(completions.map fun completion => (completion, result))
  | idle => 0
  | looking _ => 0
  | stopped => 0

def DnsWorkerCommand.tokens : DnsWorkerCommand → Multiset DnsLookupKey
  | resolve key => {key}
  | shutdown => 0

theorem DnsWorkerCommand.bind_tokens_replicate (n : Nat) :
    Multiset.bind (↑(List.replicate n shutdown) : Multiset DnsWorkerCommand) tokens = 0 := by
  induction n with
  | zero => rfl
  | succ n ih =>
    rw [List.replicate_succ, ← cons_coe, cons_bind, ih]
    rfl

def Event.invocation? : Event → Option (DnsCompletion × DnsLookupResult)
  | invoked completion result => some (completion, result)
  | _ => none

variable {completion : DnsCompletion} {result : DnsLookupResult}

namespace Service

/-- The keys of the worker commands about to be sent, queued and running. -/
def tokens (s : Service) : Multiset DnsLookupKey :=
  s.calls.bind Call.tokens + Multiset.bind ↑s.queue DnsWorkerCommand.tokens +
    s.workers.bind Worker.tokens

/-- The answers that threads are about to give. -/
def pending (s : Service) : Multiset (DnsCompletion × DnsLookupResult) :=
  s.calls.bind Call.pending + s.workers.bind Worker.pending

/-- The completions invoked, with their results. -/
def invocations (s : Service) : List (DnsCompletion × DnsLookupResult) :=
  s.log.filterMap Event.invocation?

def flights (s : Service) : Multiset DnsCompletion := ↑(values s.state.inFlight).flatten

def ledger (s : Service) : Ledger := .ofLog s.log

structure Inv (s : Service) : Prop where
  tokens_nodup : s.tokens.Nodup
  mem_tokens : ∀ key, key ∈ s.tokens ↔ (s.state.inFlight.lookup key).isSome
  waiting : ∀ key, (s.state.inFlight.lookup key).getD [] = s.ledger.waiting key
  owed : (↑s.ledger.due : Multiset (DnsCompletion × DnsLookupResult)) = ↑s.invocations + s.pending
  callers : (↑(s.ledger.due.map (·.1)) : Multiset DnsCompletion) + s.flights = range s.next
  cached : ∀ key answer, s.state.cache.answers.lookup key = some answer →
    s.ledger.latest key = some answer
  refused : ∀ key, s.ledger.refused key = true → .refused key ∈ s.calls

variable {ttl : Nat} {s s' : Service} {label : Label} {key : DnsLookupKey}

theorem ledger_concat {event : Event} (hlog : s'.log = s.log ++ [event]) :
    s'.ledger = s.ledger.record event := by
  rw [ledger, hlog, Ledger.ofLog_concat]
  rfl

theorem invocations_concat {event : Event} (hlog : s'.log = s.log ++ [event])
    (hevent : event.invocation? = none) : s'.invocations = s.invocations := by
  simp [invocations, hlog, hevent]

section Kept

variable (h : s.Inv) (hstate : s'.state = s.state) (hnext : s'.next = s.next)
include h hstate hnext

/-- A step that admits no call and finishes no lookup. -/
theorem Inv.of_kept {refused : DnsLookupKey → Bool}
    (hledger : s'.ledger = { s.ledger with refused := refused }) (htokens : s'.tokens = s.tokens)
    (howed : ↑s'.invocations + s'.pending = ↑s.invocations + s.pending)
    (hrefused : ∀ key, refused key = true → .refused key ∈ s'.calls) : s'.Inv := by
  constructor
  · rw [htokens]
    exact h.tokens_nodup
  · rw [htokens, hstate]
    exact h.mem_tokens
  · rw [hstate, hledger]
    exact h.waiting
  · rw [hledger, howed]
    exact h.owed
  · rw [hledger, hnext, flights, hstate]
    exact h.callers
  · rw [hstate, hledger]
    exact h.cached
  · rw [hledger]
    exact hrefused

/-- A step that only moves tokens and answers between the threads and the queue. -/
theorem Inv.of_moved (hlog : s'.log = s.log) (htokens : s'.tokens = s.tokens)
    (hpending : s'.pending = s.pending)
    (hrefused : ∀ key, .refused key ∈ s.calls → .refused key ∈ s'.calls) : s'.Inv := by
  refine h.of_kept hstate hnext ?_ htokens ?_ fun key hkey => hrefused key (h.refused key hkey)
  · rw [ledger, ledger, hlog]
  · rw [invocations, invocations, hlog, hpending]

/-- A step that invokes a completion. -/
theorem Inv.of_invoked (hlog : s'.log = s.log ++ [.invoked completion result])
    (htokens : s'.tokens = s.tokens) (hpending : s.pending = (completion, result) ::ₘ s'.pending)
    (hrefused : ∀ key, .refused key ∈ s.calls → .refused key ∈ s'.calls) : s'.Inv := by
  refine h.of_kept hstate hnext ?_ htokens ?_ fun key hkey => hrefused key (h.refused key hkey)
  · exact ledger_concat hlog
  · rw [invocations, hlog, List.filterMap_append, ← coe_add, add_assoc, hpending]
    rfl

/-- The queue is found closed. -/
theorem Inv.of_refused (hlog : s'.log = s.log ++ [.refused key]) (htokens : s'.tokens = s.tokens)
    (hpending : s'.pending = s.pending) (hkey : .refused key ∈ s'.calls)
    (hrefused : ∀ key, .refused key ∈ s.calls → .refused key ∈ s'.calls) : s'.Inv := by
  refine h.of_kept hstate hnext (ledger_concat hlog) htokens ?_ fun k hk => ?_
  · rw [invocations_concat hlog rfl, hpending]
  · by_cases hsame : k = key
    · rw [hsame]
      exact hkey
    · exact hrefused k (h.refused k (by simpa [hsame] using hk))

end Kept

/-- A call that is answered right away. -/
theorem Inv.of_answered (h : s.Inv) {event : Event} (hflight : s'.state.inFlight = s.state.inFlight)
    (hcache : ∀ key answer, s'.state.cache.answers.lookup key = some answer →
      s.state.cache.answers.lookup key = some answer)
    (hlog : s'.log = s.log ++ [event]) (hnext : s'.next = s.next + 1)
    (hrecord : s.ledger.record event = { s.ledger with due := s.ledger.due ++ [(s.next, result)] })
    (hevent : event.invocation? = none) (hcalls : s'.calls = .invoking s.next result ::ₘ s.calls)
    (hqueue : s'.queue = s.queue) (hworkers : s'.workers = s.workers) : s'.Inv := by
  have hledger := (ledger_concat hlog).trans hrecord
  have htokens : s'.tokens = s.tokens := by simp [tokens, hcalls, hqueue, hworkers, Call.tokens]
  have hpending : s'.pending = (s.next, result) ::ₘ s.pending := by
    simp [pending, hcalls, hworkers, Call.pending]
  have hinvoked := invocations_concat hlog hevent
  constructor
  · rw [htokens]
    exact h.tokens_nodup
  · rw [htokens, hflight]
    exact h.mem_tokens
  · rw [hflight, hledger]
    exact h.waiting
  · rw [hledger, hinvoked, hpending, add_cons, ← h.owed]
    exact (coe_eq_coe.2 List.perm_append_comm)
  · rw [hledger, hnext, flights, hflight, range_succ, ← h.callers, List.map_append,
      ← coe_add, add_right_comm, add_comm]
    rfl
  · rw [hledger]
    exact fun key answer hanswer => h.cached key answer (hcache key answer hanswer)
  · rw [hledger, hcalls]
    exact fun key hkey => mem_cons_of_mem (h.refused key hkey)

theorem flights_erase (flight : AList fun _ : DnsLookupKey => List DnsCompletion)
    (key : DnsLookupKey) : (↑(values flight).flatten : Multiset DnsCompletion) =
      ↑((flight.lookup key).getD []) + ↑(values (flight.erase key)).flatten := by
  cases hflight : flight.lookup key with
  | none =>
    rw [erase_of_absent hflight]
    rfl
  | some completions =>
    have hperm := (values_perm_erase hflight).flatten
    exact coe_eq_coe.2 hperm

theorem flights_insert {flight : AList fun _ : DnsLookupKey => List DnsCompletion} :
    (↑(values (flight.insert key ((flight.lookup key).getD [] ++ [completion]))).flatten :
      Multiset DnsCompletion) = completion ::ₘ ↑(values flight).flatten := by
  rw [values_insert, List.flatten_cons, ← coe_add, ← coe_add, flights_erase flight key,
    coe_singleton, ← singleton_add]
  abel

/-- A call that joins the lookup of its key. -/
theorem Inv.of_joined (h : s.Inv) {now : Instant}
    (hflight : s'.state.inFlight =
      s.state.inFlight.insert key ((s.state.inFlight.lookup key).getD [] ++ [s.next]))
    (hcache : ∀ key answer, s'.state.cache.answers.lookup key = some answer →
      s.state.cache.answers.lookup key = some answer)
    (hlog : s'.log = s.log ++ [.admitted s.next key now none]) (hnext : s'.next = s.next + 1)
    (htokens : (s.state.inFlight.lookup key).isSome ∧ s'.tokens = s.tokens ∨
      s.state.inFlight.lookup key = none ∧ s'.tokens = key ::ₘ s.tokens)
    (hpending : s'.pending = s.pending)
    (hrefused : ∀ key, .refused key ∈ s.calls → .refused key ∈ s'.calls) : s'.Inv := by
  have hledger := ledger_concat hlog
  have hflights : s'.flights = s.next ::ₘ s.flights := by
    rw [flights, hflight]
    exact flights_insert
  constructor
  · rcases htokens with ⟨-, htokens⟩ | ⟨hnone, htokens⟩
    · rw [htokens]
      exact h.tokens_nodup
    · rw [htokens]
      refine nodup_cons.2 ⟨fun hmem => ?_, h.tokens_nodup⟩
      have hsome := (h.mem_tokens key).1 hmem
      rw [hnone] at hsome
      cases hsome
  · intro k
    rw [hflight, lookup_insert_eq]
    by_cases hk : k = key
    · subst hk
      rcases htokens with ⟨hsome, htokens⟩ | ⟨hnone, htokens⟩
      · simp [htokens, h.mem_tokens, hsome]
      · simp [htokens]
    · rw [if_neg hk, ← h.mem_tokens]
      rcases htokens with ⟨-, htokens⟩ | ⟨-, htokens⟩
      · rw [htokens]
      · rw [htokens, mem_cons, or_iff_right hk]
  · intro k
    rw [hflight, hledger]
    by_cases hk : k = key
    · subst hk
      simp [record, h.waiting]
    · simp [record, hk, h.waiting]
  · rw [hledger, invocations_concat hlog rfl, hpending]
    exact h.owed
  · rw [hledger, hnext, hflights, range_succ, ← h.callers, add_cons]
    rfl
  · rw [hledger]
    exact fun key answer hanswer => h.cached key answer (hcache key answer hanswer)
  · rw [hledger]
    exact fun key hkey => hrefused key (h.refused key hkey)

/-- The lookup of a key is finished, and its token is gone. -/
theorem Inv.of_finished (h : s.Inv)
    (hstate : s'.state = (s.state.finish key result (s.now + ttl)).2)
    (hlog : s'.log = s.log ++ [.finished key result (s.now + ttl)]) (hnext : s'.next = s.next)
    (htokens : s.tokens = key ::ₘ s'.tokens)
    (hpending : s'.pending = ↑((s.state.finish key result (s.now + ttl)).1.map fun completion =>
      (completion, result)) + s.pending)
    (hrefused : ∀ k, k ≠ key → .refused k ∈ s.calls → .refused k ∈ s'.calls) : s'.Inv := by
  have hledger := ledger_concat hlog
  have hflight : s'.state.inFlight = s.state.inFlight.erase key := by rw [hstate]; rfl
  have hnodup := h.tokens_nodup
  rw [htokens, nodup_cons] at hnodup
  constructor
  · exact hnodup.2
  · intro k
    rw [hflight, lookup_erase_eq]
    by_cases hk : k = key
    · subst hk
      simp [hnodup.1]
    · rw [if_neg hk, ← h.mem_tokens, htokens, mem_cons, or_iff_right hk]
  · intro k
    rw [hflight, hledger]
    by_cases hk : k = key
    · subst hk
      simp [record]
    · simp [record, hk, h.waiting]
  · rw [hledger, invocations_concat hlog rfl, hpending]
    simp only [DnsResolverState.finish, h.waiting, record, ← coe_add]
    rw [h.owed]
    abel
  · have hdue : s'.ledger.due.map (·.1) = s.ledger.due.map (·.1) ++
        (s.state.inFlight.lookup key).getD [] := by
      rw [hledger, h.waiting]
      simp [record, Function.comp_def]
    rw [hdue, hnext, ← h.callers, flights, hflight, flights, flights_erase s.state.inFlight key,
      ← coe_add, add_assoc]
  · intro k answer hanswer
    rw [hstate] at hanswer
    rw [hledger]
    cases result with
    | ok addresses =>
      simp only [DnsResolverState.finish, DnsPositiveCache.insert, lookup_insert_eq] at hanswer
      by_cases hk : k = key
      · subst hk
        simpa [record, Ledger.latestAfter] using hanswer
      · rw [if_neg hk] at hanswer
        simpa [record, hk] using h.cached k answer hanswer
    | error _ =>
      have hold := h.cached k answer hanswer
      by_cases hk : k = key
      · subst hk
        simpa [record, Ledger.latestAfter] using hold
      · simpa [record, hk] using hold
  · intro k hk
    rw [hledger] at hk
    by_cases hkey : k = key
    · subst hkey
      simp [record] at hk
    · exact hrefused k hkey (h.refused k (by simpa [record, hkey] using hk))

theorem Inv.admission (h : s.Inv) (key : DnsLookupKey) : (s.admitCall key).Inv := by
  obtain ⟨-, hretired⟩ := s.state.cache.get_spec key s.now
  have hcache (k : DnsLookupKey) (answer : DnsCachedAnswer)
      (hanswer : (s.state.cache.get key s.now).2.answers.lookup k = some answer) :
      s.state.cache.answers.lookup k = some answer := by
    rcases hretired k with heq | ⟨hnone, -⟩
    · rw [← heq, hanswer]
    · rw [hnone] at hanswer
      cases hanswer
  unfold admitCall DnsResolverState.admitLookup
  cases hget : s.state.cache.get key s.now with
  | mk found cache =>
    rw [hget] at hcache
    cases found with
    | some addresses =>
      exact h.of_answered rfl hcache rfl rfl rfl
        rfl rfl rfl rfl
    | none =>
      cases hflight : s.state.inFlight.lookup key with
      | some completions =>
        refine h.of_joined ?_ hcache rfl rfl (.inl ⟨by rw [hflight]; rfl, ?_⟩) ?_ ?_
        · simp [hflight]
        · simp [tokens, afterAdmission]
        · simp [pending, afterAdmission]
        · simp [afterAdmission]
      | none =>
        refine h.of_joined ?_ hcache rfl rfl (.inr ⟨hflight, ?_⟩) ?_ ?_
        · simp [hflight]
        · simp [tokens, afterAdmission, Call.tokens]
        · simp [pending, afterAdmission, Call.pending]
        · simp [afterAdmission]

theorem Inv.step (h : s.Inv) (hstep : Step ttl s label s') : s'.Inv := by
  cases hstep with
  | tick elapsed => exact h.of_moved rfl rfl rfl rfl rfl fun key hkey => hkey
  | reject key hreserved =>
    exact h.of_answered rfl (fun _ _ hanswer => hanswer) rfl rfl
      rfl rfl rfl rfl rfl
  | admission key hreserved => exact h.admission key
  | send hcall hopen =>
    refine h.of_moved rfl rfl rfl ?_ ?_ ?_
    · simp only [tokens, hcall, cons_bind, Call.tokens, DnsWorkerCommand.tokens,
        ← coe_add, add_bind, coe_singleton, singleton_bind]
      abel
    · simp [pending, hcall, Call.pending]
    · simp [hcall]
  | sendRefused hcall hclosed =>
    refine h.of_refused rfl rfl rfl ?_ ?_ ?_ ?_
    · simp [tokens, hcall, Call.tokens]
    · simp [pending, hcall, Call.pending]
    · simp
    · simp +contextual [hcall]
  | publishRefused hcall =>
    refine h.of_finished rfl rfl rfl ?_ ?_ ?_
    · simp [tokens, hcall, Call.tokens, finishLookup]
    · simp [pending, hcall, Call.pending, finishLookup, add_assoc]
    · simp +contextual [hcall]
  | invokeCall hcall | invokePublished hcall =>
    refine h.of_invoked rfl rfl rfl ?_ ?_ ?_
    · simp [tokens, hcall, Call.tokens, invoke]
    · simp [pending, hcall, Call.pending, invoke, ← cons_coe]
    · simp [hcall]
  | returned hcall =>
    refine h.of_moved rfl rfl rfl ?_ ?_ ?_
    · simp [tokens, hcall, Call.tokens]
    · simp [pending, hcall, Call.pending]
    · simp [hcall]
  | receive hworker hqueue | receiveShutdown hworker hqueue =>
    refine h.of_moved rfl rfl rfl ?_ ?_ fun key hkey => hkey
    · simp [tokens, hworker, hqueue, Worker.tokens, DnsWorkerCommand.tokens, ← cons_coe]
    · simp [pending, hworker, Worker.pending]
  | publish result hworker =>
    refine h.of_finished rfl rfl rfl ?_ ?_ fun k _ hk => hk
    · simp [tokens, hworker, Worker.tokens, finishLookup]
    · simp only [pending, hworker, Worker.pending, finishLookup, cons_bind]
      abel
  | invokeLooked hworker =>
    refine h.of_invoked rfl rfl rfl ?_ ?_ fun key hkey => hkey
    · simp [tokens, hworker, Worker.tokens, invoke]
    · simp [pending, hworker, Worker.pending, invoke, ← cons_coe]
  | looked hworker =>
    refine h.of_moved rfl rfl rfl ?_ ?_ fun key hkey => hkey
    · simp [tokens, hworker, Worker.tokens]
    · simp [pending, hworker, Worker.pending]
  | stop =>
    refine h.of_moved rfl rfl rfl ?_ rfl fun key hkey => hkey
    simp only [tokens, ← coe_add, add_bind, DnsWorkerCommand.bind_tokens_replicate, add_zero]

/-! ## The log -/

/-- What an event needs of the log before it. A caller is answered from the cache with the latest
successful lookup of its key, before that lookup's expiry; a lookup that found the queue closed ends
with an error; and a completion is invoked with what is due to it. -/
def Faithful (past : List Event) : Event → Prop
  | .admitted _ key now (some addresses) => ∃ expiresAt,
      (ofLog past).latest key = some ⟨addresses, expiresAt⟩ ∧ now < expiresAt
  | .finished key result _ => (ofLog past).refused key = true → result = shuttingDown
  | .invoked completion result => (completion, result) ∈ (ofLog past).due
  | _ => True

theorem Inv.due_of_pending (h : s.Inv) {x : DnsCompletion × DnsLookupResult} (hx : x ∈ s.pending) :
    x ∈ s.ledger.due := by
  have hmem : x ∈ (↑s.ledger.due : Multiset (DnsCompletion × DnsLookupResult)) := by
    rw [h.owed]
    exact mem_add.2 (.inr hx)
  exact hmem

theorem Inv.faithful_admission (h : s.Inv) (key : DnsLookupKey) :
    Faithful s.log
      (.admitted s.next key s.now (cachedBy (s.state.admitLookup key s.next s.now).1)) := by
  obtain ⟨hfound, -⟩ := s.state.cache.get_spec key s.now
  unfold DnsResolverState.admitLookup
  cases hget : s.state.cache.get key s.now with
  | mk found cache =>
    rw [hget] at hfound
    cases found with
    | some addresses =>
      obtain ⟨answer, hanswer, rfl⟩ := Option.map_eq_some_iff.1 hfound.symm
      obtain ⟨hlookup, hlt⟩ := Option.filter_eq_some_iff.1 hanswer
      exact ⟨answer.expiresAt, h.cached key answer hlookup, of_decide_eq_true hlt⟩
    | none =>
      cases s.state.inFlight.lookup key with
      | some | none => exact trivial

/-- The lookup of a worker did not find the queue closed: its key has one token only. -/
theorem Inv.not_refused (h : s.Inv) {rest : Multiset Worker}
    (hworker : s.workers = .looking key ::ₘ rest) : s.ledger.refused key = false := by
  by_contra hrefused
  obtain ⟨calls, hcalls⟩ := exists_cons_of_mem (h.refused key (by simpa using hrefused))
  have hnodup := h.tokens_nodup
  simp [tokens, hcalls, hworker, Call.tokens, Worker.tokens] at hnodup

theorem Inv.faithful_step (h : s.Inv) (hlog : Every Faithful s.log) (hstep : Step ttl s label s') :
    Every Faithful s'.log := by
  cases hstep with
  | tick | send | returned | receive | receiveShutdown | looked | stop => exact hlog
  | reject | sendRefused => exact every_concat.2 ⟨hlog, trivial⟩
  | admission key hreserved => exact every_concat.2 ⟨hlog, h.faithful_admission key⟩
  | publishRefused hcall => exact every_concat.2 ⟨hlog, fun _ => rfl⟩
  | invokeCall hcall | invokePublished hcall =>
    refine every_concat.2 ⟨hlog, h.due_of_pending ?_⟩
    simp [pending, hcall, Call.pending]
  | publish result hworker =>
    refine every_concat.2 ⟨hlog, fun hrefused => ?_⟩
    have hnot : s.ledger.refused _ = false := h.not_refused hworker
    rw [ledger, hrefused] at hnot
    cases hnot
  | invokeLooked hworker =>
    refine every_concat.2 ⟨hlog, h.due_of_pending ?_⟩
    simp [pending, hworker, Worker.pending]

/-! ## Runs -/

theorem bind_replicate_idle {α : Type*} {f : Worker → Multiset α} (hf : f .idle = 0) (n : Nat) :
    (replicate n Worker.idle).bind f = 0 := by
  induction n with
  | zero => rfl
  | succ n ih => rw [replicate_succ, cons_bind, hf, ih, add_zero]

theorem inv_start (workerCount : Nat) (now : Instant) : (start workerCount now).Inv := by
  have htokens : (start workerCount now).tokens = 0 := by
    simp [tokens, start, bind_replicate_idle (f := Worker.tokens) rfl]
  have hpending : (start workerCount now).pending = 0 := by
    simp [pending, start, bind_replicate_idle (f := Worker.pending) rfl]
  constructor
  · rw [htokens]
    exact nodup_zero
  · intro key
    rw [htokens]
    simp [start, DnsResolverState.empty]
  · exact fun key => rfl
  · rw [hpending]
    rfl
  · rfl
  · intro key answer hanswer
    cases hanswer
  · intro key hkey
    cases hkey

/-- No call of `resolve` goes on, and every worker command has been processed. -/
structure Quiescent (s : Service) : Prop where
  calls : s.calls = 0
  workers : ∀ w ∈ s.workers, w = .idle ∨ w = .stopped
  queue : ∀ key, .resolve key ∉ s.queue

/-- Locked sections invoke no completion, and a completion is invoked with the lock free. -/
theorem Step.unlocked (hstep : Step ttl s label s') :
    (label.locked = true → s'.invocations = s.invocations) ∧
      (s'.invocations ≠ s.invocations → label.locked = false ∧ s'.state = s.state) := by
  cases hstep with
  | reject | sendRefused => simp [invocations, Event.invocation?]
  | admission key hreserved => simp [invocations, admitCall, Event.invocation?]
  | publishRefused | publish => simp [invocations, finishLookup, Event.invocation?]
  | _ => exact ⟨fun h => (by cases h), fun _ => ⟨rfl, rfl⟩⟩

theorem Inv.invoked_once (h : s.Inv) : (s.invocations.map (·.1)).Nodup := by
  have hdue : (↑(s.ledger.due.map (·.1)) : Multiset DnsCompletion).Nodup :=
    nodup_of_le (by rw [← h.callers]; exact Multiset.le_add_right ..)
      (nodup_range s.next)
  have hle : (↑(s.invocations.map (·.1)) : Multiset DnsCompletion) ≤ ↑(s.ledger.due.map (·.1)) := by
    rw [← map_coe, ← map_coe, h.owed, Multiset.map_add]
    exact Multiset.le_add_right ..
  exact coe_nodup.1 (nodup_of_le hle hdue)

theorem Quiescent.bind_workers {α : Type*} {f : Worker → Multiset α} (h : s.Quiescent)
    (hidle : f .idle = 0) (hstopped : f .stopped = 0) : s.workers.bind f = 0 := by
  refine eq_zero_of_forall_notMem fun x hx => ?_
  obtain ⟨w, hw, hmem⟩ := mem_bind.1 hx
  rcases h.workers w hw with rfl | rfl
  · rw [hidle] at hmem
    exact notMem_zero x hmem
  · rw [hstopped] at hmem
    exact notMem_zero x hmem

theorem Quiescent.tokens_eq (h : s.Quiescent) : s.tokens = 0 := by
  have hqueue : Multiset.bind (↑s.queue : Multiset DnsWorkerCommand) DnsWorkerCommand.tokens =
      0 := by
    refine eq_zero_of_forall_notMem fun x hx => ?_
    obtain ⟨command, hcommand, hmem⟩ := mem_bind.1 hx
    cases command with
    | resolve key => exact h.queue key hcommand
    | shutdown => exact notMem_zero x hmem
  rw [tokens, h.calls, hqueue, h.bind_workers rfl rfl]
  rfl

theorem Quiescent.pending_eq (h : s.Quiescent) : s.pending = 0 := by
  rw [pending, h.calls, h.bind_workers rfl rfl]
  rfl

theorem Inv.flights_eq (h : s.Inv) (htokens : s.tokens = 0) : s.flights = 0 := by
  have hvalues : values s.state.inFlight = [] := by
    refine List.eq_nil_iff_forall_not_mem.2 fun completions hmem => ?_
    obtain ⟨key, hkey⟩ := mem_values.1 hmem
    have htoken := (h.mem_tokens key).2 (by rw [hkey]; rfl)
    rw [htokens] at htoken
    exact notMem_zero key htoken
  rw [flights, hvalues]
  rfl

/-- When everything has been processed, the completions invoked are all those passed in, each with
what is due to it. -/
theorem Inv.of_quiescent (h : s.Inv) (hq : s.Quiescent) :
    s.invocations.Perm s.ledger.due ∧ (s.invocations.map (·.1)).Perm (List.range s.next) := by
  have hdue : s.invocations.Perm s.ledger.due := by
    have howed := h.owed
    rw [hq.pending_eq, add_zero] at howed
    exact (coe_eq_coe.1 howed).symm
  refine ⟨hdue, (hdue.map _).trans ?_⟩
  have hcallers := h.callers
  rw [h.flights_eq hq.tokens_eq, add_zero] at hcallers
  exact coe_eq_coe.1 hcallers

end Service

theorem Ledger.due_subset_foldl (ledger : Ledger) (log : List Event) :
    ledger.due ⊆ (log.foldl record ledger).due := by
  induction log generalizing ledger with
  | nil => exact List.Subset.refl _
  | cons event log ih =>
    refine List.Subset.trans ?_ (ih (ledger.record event))
    rcases event with _ | ⟨_, _, _, _ | _⟩ | _ | _ | _
    all_goals simp [record]

/-- A caller that waits when the lookup of its key is finished is due the result. -/
theorem Ledger.due_of_finished {past rest : List Event} {key : DnsLookupKey} {expiresAt : Instant}
    (hwaiting : completion ∈ (ofLog past).waiting key) :
    (completion, result) ∈ (ofLog (past ++ .finished key result expiresAt :: rest)).due := by
  rw [ofLog, List.foldl_append]
  refine due_subset_foldl _ rest ?_
  exact List.mem_append_right _ (List.mem_map_of_mem hwaiting)

/-- In every run of the service: each completion is invoked at most once, without the lock, and with
what is due to it; the events are faithful to the log before them; a key has at most one worker
command on its way, queued or running; the cache holds latest successful lookups only; and when all
commands have been processed, all completions have been invoked, those that joined a lookup with its
result. -/
theorem answers_due (ttl workerCount : Nat) (now : Instant) (labels : List Service.Label)
    (s : Service) (h : Trace (Service.Step ttl) (.start workerCount now) labels s) :
    (s.invocations.map (·.1)).Nodup ∧ Every Service.Faithful s.log ∧ s.tokens.Nodup ∧
    (∀ key answer, s.state.cache.answers.lookup key = some answer →
      s.ledger.latest key = some answer) ∧
    (∀ label s', Service.Step ttl s label s' →
      (label.locked = true → s'.invocations = s.invocations) ∧
        (s'.invocations ≠ s.invocations → label.locked = false ∧ s'.state = s.state)) ∧
    (s.Quiescent →
      s.invocations.Perm s.ledger.due ∧ (s.invocations.map (·.1)).Perm (List.range s.next) ∧
      ∀ past key result expiresAt rest, s.log = past ++ .finished key result expiresAt :: rest →
        ∀ completion ∈ (ofLog past).waiting key, (completion, result) ∈ s.invocations) := by
  obtain ⟨hinv, hlog⟩ : s.Inv ∧ Every Service.Faithful s.log := by
    refine h.invariant (P := fun s => s.Inv ∧ Every Service.Faithful s.log) ?_
      ⟨Service.inv_start workerCount now, every_nil⟩
    exact fun s label s' hs hstep => ⟨hs.1.step hstep, hs.1.faithful_step hs.2 hstep⟩
  refine ⟨hinv.invoked_once, hlog, hinv.tokens_nodup, hinv.cached,
    fun _ _ => Service.Step.unlocked, ?_⟩
  intro hq
  obtain ⟨hdue, hall⟩ := hinv.of_quiescent hq
  refine ⟨hdue, hall, ?_⟩
  intro past key result expiresAt rest hsplit completion hwaiting
  refine hdue.mem_iff.2 ?_
  rw [Service.ledger, hsplit]
  exact Ledger.due_of_finished hwaiting

/-! ## A lookup -/

namespace Sample

def key : DnsLookupKey := ⟨1, "example.com", 443⟩

def asked : Service := (Service.start 1 0).admitCall key

def sent : Service := { asked with calls := 0, queue := [.resolve key] }

def looking : Service := { sent with workers := {.looking key}, queue := [] }

def answer : DnsLookupResult := .ok [.v4 0x7f000001]

def published : Service :=
  { (looking.finishLookup 60 key answer).2 with workers := {.publishing answer [0]} }

def answered : Service := { published.invoke 0 answer with workers := {.publishing answer []} }

theorem run : Trace (Service.Step 60) (.start 1 0) [.admission, .send, .receive, .publish, .invoke]
    answered := by
  have hsend : Service.Step 60 asked .send sent := by
    refine @Service.Step.send 60 asked key 0 rfl fun hclosed => ?_
    cases hclosed .idle (mem_singleton_self _)
  exact .cons (.admission key (by decide +kernel)) <| .cons hsend <|
    .cons (@Service.Step.receive 60 sent key [] 0 rfl rfl) <|
    .cons (@Service.Step.publish 60 looking key 0 answer rfl) <|
    .cons (@Service.Step.invokeLooked 60 published 0 [] answer 0 rfl) <| .nil _

end Sample

theorem answers_due_sample :
    (Sample.answered.invocations.map (·.1)).Nodup ∧ Every Service.Faithful Sample.answered.log :=
  have h := answers_due 60 1 0 _ Sample.answered Sample.run
  ⟨h.1, h.2.1⟩

end Moli.Dns
