import Moli.Writeback.Verify.Groups

/-!
# Replies and failures

Requests are answered in the order in which they were sent, none is behind a `Close`, and none is
left when the loop has returned (`Requests.step`). The failure that a flush reports is that of the
latest attempt or of opening the database (`Failures.step`).
-/

namespace Moli.Writeback

open List

variable {β σ ρ : Type}

/-! ## Requests -/

namespace Event

def sent? : Event β ρ → Option Nat
  | sentQuery id | sentFlush id => some id
  | _ => none

def replied? : Event β ρ → Option Nat
  | repliedQuery id _ | repliedFlush id _ => some id
  | _ => none

end Event

def sentOf (log : List (Event β ρ)) : List Nat := log.filterMap Event.sent?

def repliesOf (log : List (Event β ρ)) : List Nat := log.filterMap Event.replied?

def Message.id? : Message σ ρ → Option Nat
  | query id _ | flush id => some id
  | close => none

def Purpose.hand : Purpose → List Nat
  | flush id => [id]
  | _ => []

def Purpose.closes : Purpose → Bool
  | close => true
  | _ => false

namespace Loop

/-- The request that the loop works on. -/
def hand : Loop β σ ρ → List Nat
  | querying id _ | replying id | answering id _ => [id]
  | committing purpose | writing _ purpose | wrote _ purpose => purpose.hand
  | _ => []

/-- `Close` has been received. -/
def closes : Loop β σ ρ → Bool
  | committing purpose | writing _ purpose | wrote _ purpose => purpose.closes
  | closing | closingConnection _ | returned _ | sealed _ | ended => true
  | _ => false

theorem hand_after (purpose : Purpose) : (after purpose : Loop β σ ρ).hand = purpose.hand := by
  cases purpose <;> rfl

theorem closes_after (purpose : Purpose) :
    (after purpose : Loop β σ ρ).closes = purpose.closes := by
  cases purpose <;> rfl

end Loop

def ids (queue : List (Message σ ρ)) : List Nat := queue.filterMap Message.id?

structure Requests (closed closes : Bool) (hand : List Nat) (queue : List (Message σ ρ))
    (next : Nat) (log : List (Event β ρ)) : Prop where
  fifo : sentOf log = repliesOf log ++ hand ++ ids queue
  fresh : sentOf log = range next
  queue_eq : ∃ requests n, queue = requests ++ replicate n .close ∧
    (∀ message ∈ requests, message.id?.isSome = true) ∧ (n ≠ 0 → closed = true)
  none_left : closes = true → closed = true ∧ ids queue = []

namespace Requests

variable {closed closes : Bool} {hand : List Nat} {queue : List (Message σ ρ)} {next id : Nat}
  {log : List (Event β ρ)} {last : Event β ρ} {message : Message σ ρ}

theorem start : Requests false false [] ([] : List (Message σ ρ)) 0 ([] : List (Event β ρ)) where
  fifo := rfl
  fresh := rfl
  queue_eq := ⟨[], 0, rfl, fun _ h => absurd h not_mem_nil, fun h => absurd rfl h⟩
  none_left h := by cases h

theorem event (h : Requests closed closes hand queue next log) (hsent : last.sent? = none)
    (hreplied : last.replied? = none) :
    Requests closed closes hand queue next (log ++ [last]) := by
  have hs : sentOf (log ++ [last]) = sentOf log := by
    rw [sentOf, Lib.filterMap_concat, hsent]
    exact append_nil _
  have hr : repliesOf (log ++ [last]) = repliesOf log := by
    rw [repliesOf, Lib.filterMap_concat, hreplied]
    exact append_nil _
  exact ⟨by rw [hs, hr, h.fifo], by rw [hs, h.fresh], h.queue_eq, h.none_left⟩

theorem push (h : Requests false closes hand queue next log) (hid : message.id? = some next)
    (hsent : last.sent? = some next) (hreplied : last.replied? = none) :
    Requests false closes hand (queue ++ [message]) (next + 1) (log ++ [last]) := by
  have hs : sentOf (log ++ [last]) = sentOf log ++ [next] := by
    rw [sentOf, Lib.filterMap_concat, hsent]
    rfl
  have hr : repliesOf (log ++ [last]) = repliesOf log := by
    rw [repliesOf, Lib.filterMap_concat, hreplied]
    exact append_nil _
  have hi : ids (queue ++ [message]) = ids queue ++ [next] := by
    rw [ids, Lib.filterMap_concat, hid]
    rfl
  refine ⟨?_, ?_, ?_, fun hcloses => (by cases (h.none_left hcloses).1)⟩
  · rw [hs, hr, hi, h.fifo, append_assoc _ (ids queue)]
  · rw [hs, h.fresh, range_succ]
  · obtain ⟨requests, n, rfl, hrequests, hn⟩ := h.queue_eq
    obtain rfl : n = 0 := by
      by_contra hne
      cases hn hne
    refine ⟨requests ++ [message], 0, by simp, ?_, fun hne => absurd rfl hne⟩
    intro m hm
    rcases mem_append.1 hm with hm | hm
    · exact hrequests m hm
    · rw [mem_singleton.1 hm, hid]
      rfl

theorem pushClose (h : Requests true closes hand queue next log) :
    Requests true closes hand (queue ++ [.close]) next log := by
  have hi : ids (queue ++ [.close]) = ids queue := (Lib.filterMap_concat ..).trans (append_nil _)
  refine ⟨by rw [hi, h.fifo], h.fresh, ?_,
    fun hcloses => ⟨rfl, by rw [hi, (h.none_left hcloses).2]⟩⟩
  obtain ⟨requests, n, rfl, hrequests, -⟩ := h.queue_eq
  refine ⟨requests, n + 1, ?_, hrequests, fun _ => rfl⟩
  rw [replicate_succ', append_assoc]

theorem sealed (h : Requests closed closes hand queue next log) :
    Requests true closes hand queue next log := by
  obtain ⟨requests, n, hqueue, hrequests, -⟩ := h.queue_eq
  exact ⟨h.fifo, h.fresh, ⟨requests, n, hqueue, hrequests, fun _ => rfl⟩,
    fun hcloses => ⟨rfl, (h.none_left hcloses).2⟩⟩

theorem receive (h : Requests closed closes [] (message :: queue) next log)
    (hid : message.id? = some id) : Requests closed closes [id] queue next log := by
  have hi : ids (message :: queue) = id :: ids queue := filterMap_cons_some hid
  refine ⟨?_, h.fresh, ?_, fun hcloses => ?_⟩
  · rw [h.fifo, hi]
    simp
  · obtain ⟨requests, n, hqueue, hrequests, hn⟩ := h.queue_eq
    cases requests with
    | nil =>
      cases n with
      | zero => cases hqueue
      | succ n =>
        cases hqueue
        cases hid
    | cons first requests =>
      cases hqueue
      exact ⟨requests, n, rfl, fun m hm => hrequests m (mem_cons_of_mem _ hm), hn⟩
  · have hnone := (h.none_left hcloses).2
    rw [hi] at hnone
    cases hnone

theorem receiveClose (h : Requests closed false [] (.close :: queue) next log) :
    Requests closed true [] queue next log := by
  obtain ⟨requests, n, hqueue, hrequests, hn⟩ := h.queue_eq
  cases requests with
  | cons first requests =>
    cases hqueue
    cases hrequests .close (mem_cons_self ..)
  | nil =>
    cases n with
    | zero => cases hqueue
    | succ n =>
      cases hqueue
      have hi : ids (replicate n .close : List (Message σ ρ)) = [] :=
        filterMap_eq_nil_iff.2 fun m hm => by rw [eq_of_mem_replicate hm]; rfl
      refine ⟨?_, h.fresh, ⟨[], n, rfl, fun _ h => absurd h not_mem_nil, ?_⟩, fun _ => ⟨?_, hi⟩⟩
      · exact h.fifo
      · exact fun _ => hn (Nat.succ_ne_zero n)
      · exact hn (Nat.succ_ne_zero n)

theorem reply (h : Requests closed closes [id] queue next log) (hsent : last.sent? = none)
    (hreplied : last.replied? = some id) : Requests closed closes [] queue next
      (log ++ [last]) := by
  have hs : sentOf (log ++ [last]) = sentOf log := by
    rw [sentOf, Lib.filterMap_concat, hsent]
    exact append_nil _
  have hr : repliesOf (log ++ [last]) = repliesOf log ++ [id] := by
    rw [repliesOf, Lib.filterMap_concat, hreplied]
    rfl
  exact ⟨by rw [hs, hr, h.fifo, append_nil], by rw [hs, h.fresh], h.queue_eq, h.none_left⟩

theorem dropQueue (h : Requests closed true hand queue next log) :
    Requests closed true hand ([] : List (Message σ ρ)) next log := by
  obtain ⟨hclosed, hids⟩ := h.none_left rfl
  refine ⟨?_, h.fresh, ⟨[], 0, rfl, fun _ h => absurd h not_mem_nil, fun h => absurd rfl h⟩,
    fun _ => ⟨hclosed, rfl⟩⟩
  rw [h.fifo, hids]
  rfl

end Requests

/-! ## Steps of the requests -/

variable [WriteBatch β σ]

namespace Owner

/-- The owner has closed admission. -/
def hasSealed : Owner → Bool
  | sending _ | receiving _ | closed _ => true
  | _ => false

end Owner

namespace System

structure Requests (s : System β σ ρ) : Prop where
  requests : Writeback.Requests s.pending.closed s.loop.closes s.loop.hand s.queue s.next s.log
  owner : s.owner.hasSealed = true → s.pending.closed = true
  log : Event.sealed ∈ s.log → s.pending.closed = true

variable {s s' : System β σ ρ} {policy : WritebackPolicy}

omit [WriteBatch β σ] in
theorem Requests.opening (h : s.Requests) (result : Receipt) :
    Writeback.Requests s.pending.closed s.loop.closes s.loop.hand s.queue s.next
      (s.log ++ s.opening result) := by
  rcases s.opening_eq result with hopening | hopening <;> rw [hopening]
  · rw [append_nil]
    exact h.requests
  · exact h.requests.event rfl rfl

omit [WriteBatch β σ] in
theorem sealed_notMem_opening (s : System β σ ρ) (result : Receipt) :
    Event.sealed ∉ s.opening result := by
  rcases s.opening_eq result with hopening | hopening <;> simp [hopening]

omit [WriteBatch β σ] in
/-- The events of a step other than the sealing of admission. -/
theorem Requests.log_append (h : s.Requests) (events : List (Event β ρ))
    (hevents : Event.sealed ∉ events) (hlog : Event.sealed ∈ s.log ++ events) :
    s.pending.closed = true :=
  h.log ((mem_append.1 hlog).resolve_right hevents)

theorem Requests.loop (h : s.Requests) (hstep : LoopStep policy s s') : s'.Requests := by
  have hrequests := h.requests
  have hopening := h.opening
  have hlog := h.log_append
  cases hstep with
  | start hloop | notified hloop _ | timer hloop _ | queried hloop | reply hloop | closing hloop
  | finish hloop =>
    rw [hloop] at hrequests
    exact ⟨hrequests, h.owner, h.log⟩
  | recvQuery hloop hqueue | recvFlush hloop hqueue =>
    rw [hloop, hqueue] at hrequests
    exact ⟨hrequests.receive rfl, h.owner, h.log⟩
  | recvClose hloop hqueue =>
    rw [hloop, hqueue] at hrequests
    exact ⟨hrequests.receiveClose, h.owner, h.log⟩
  | runQuery hloop opening =>
    rw [hloop] at hopening
    refine ⟨(hopening opening).reply rfl rfl, h.owner, ?_⟩
    dsimp only [System.runQuery]
    rw [append_assoc]
    exact hlog _ (by simp [sealed_notMem_opening])
  | skip hloop _ | wrote hloop =>
    rw [hloop] at hrequests
    refine ⟨?_, h.owner, h.log⟩
    rw [Loop.hand_after, Loop.closes_after]
    exact hrequests
  | take hloop hempty =>
    rw [hloop] at hrequests
    exact ⟨hrequests.event rfl rfl, h.owner, hlog _ (by simp)⟩
  | write hloop opening outcome =>
    rw [hloop] at hopening
    refine ⟨(hopening opening).event rfl rfl, h.owner, ?_⟩
    dsimp only [System.write]
    rw [append_assoc]
    exact hlog _ (by simp [sealed_notMem_opening])
  | answer hloop =>
    rw [hloop] at hrequests
    exact ⟨hrequests.reply rfl rfl, h.owner, hlog _ (by simp)⟩
  | closeConnection hloop closing =>
    rw [hloop] at hrequests
    exact ⟨hrequests.dropQueue, h.owner, h.log⟩
  | returned hloop =>
    rw [hloop] at hrequests
    exact ⟨hrequests.sealed, fun _ => rfl, fun _ => rfl⟩

theorem Requests.client (h : s.Requests) (hstep : ClientStep s s') : s'.Requests := by
  have hrequests := h.requests
  have hlog := h.log_append
  cases hstep with
  | accept batch hclosed =>
    unfold System.accept
    split
    · exact h
    · exact ⟨hrequests.event rfl rfl, h.owner, hlog _ (by simp)⟩
  | query run hclosed hreceives | flush hclosed hreceives =>
    rw [hclosed] at hrequests
    refine ⟨?_, h.owner, hlog _ (by simp)⟩
    dsimp only [sendQuery, sendFlush, send]
    rw [hclosed, if_pos hreceives]
    exact hrequests.push rfl rfl rfl
  | refuseQuery _ | refuseFlush _ => exact ⟨hrequests.event rfl rfl, h.owner, hlog _ (by simp)⟩

omit [WriteBatch β σ] in
theorem Requests.ownerStep (h : s.Requests) (hstep : OwnerStep s s') : s'.Requests := by
  have hrequests := h.requests
  have hlog := h.log_append
  cases hstep with
  | close | drop | dropped => exact ⟨hrequests, fun hsealed => (by cases hsealed), h.log⟩
  | closeAgain howner => exact ⟨hrequests.event rfl rfl, h.owner, hlog _ (by simp)⟩
  | sealAdmission howner => exact ⟨hrequests.sealed.event rfl rfl, fun _ => rfl, fun _ => rfl⟩
  | sendClose howner =>
    have hclosed : s.pending.closed = true := h.owner (by rw [howner]; rfl)
    rw [hclosed] at hrequests
    refine ⟨?_, fun _ => hclosed, h.log⟩
    dsimp only [send]
    rw [hclosed]
    split
    · exact hrequests.pushClose
    · exact hrequests
  | recv howner hfinished =>
    have hclosed : s.pending.closed = true := h.owner (by rw [howner]; rfl)
    exact ⟨hrequests.event rfl rfl, fun _ => hclosed, hlog _ (by simp)⟩

theorem Requests.step (h : s.Requests) (hstep : Step policy s s') : s'.Requests := by
  cases hstep with
  | loop hstep => exact h.loop hstep
  | client hstep => exact h.client hstep
  | owner hstep => exact h.ownerStep hstep
  | tick => exact ⟨h.requests, h.owner, h.log⟩

end System

/-! ## Failures -/

section Failing

omit [WriteBatch β σ]

/-- The latest attempt failed. -/
def latestFailed (log : List (Event β ρ)) : Bool := (attemptsOf log).getLast?.any fun a => !a.2.isOk

def Event.isOpeningFailure : Event β ρ → Bool
  | opened result => !result.isOk
  | _ => false

def openingFailed (log : List (Event β ρ)) : Bool := log.any Event.isOpeningFailure

def failing (log : List (Event β ρ)) : Bool := latestFailed log || openingFailed log

variable (log : List (Event β ρ))

theorem openingFailed_concat (event : Event β ρ) :
    openingFailed (log ++ [event]) = (openingFailed log || event.isOpeningFailure) := by
  simp [openingFailed]

theorem openingFailed_other {event : Event β ρ} (h : event.isOpeningFailure = false) :
    openingFailed (log ++ [event]) = openingFailed log := by
  rw [openingFailed_concat, h, Bool.or_false]

theorem latestFailed_concat {event : Event β ρ} (h : event.attempted? = none) :
    latestFailed (log ++ [event]) = latestFailed log := by
  rw [latestFailed, attemptsOf_concat, h]
  exact congrArg (fun l => Option.any _ (getLast? l)) (append_nil _)

theorem latestFailed_attempted (batch : β) (result : Receipt) :
    latestFailed (log ++ [.attempted batch result]) = !result.isOk := by
  simp [latestFailed, attemptsOf_concat, Event.attempted?]

theorem failing_attempted (batch : β) (result : Receipt) :
    failing (log ++ [.attempted batch result]) = (!result.isOk || openingFailed log) := by
  rw [failing, latestFailed_attempted, openingFailed_other log rfl]

theorem failing_concat {event : Event β ρ} (hattempted : event.attempted? = none)
    (hopening : event.isOpeningFailure = false) : failing (log ++ [event]) = failing log := by
  rw [failing, latestFailed_concat log hattempted, openingFailed_other log hopening]
  rfl

end Failing

namespace LazyConnection

theorem failure_get_unopened (opening : Receipt) :
    (unopened.get opening).failure.isSome = !opening.isOk := by
  cases opening <;> rfl

end LazyConnection

namespace System

variable {s s' : System β σ ρ} {policy : WritebackPolicy}

section Opening

omit [WriteBatch β σ]

theorem latestFailed_opening (s : System β σ ρ) (result : Receipt) :
    latestFailed (s.log ++ s.opening result) = latestFailed s.log := by
  rcases s.opening_eq result with hopening | hopening <;> rw [hopening]
  · rw [append_nil]
  · exact latestFailed_concat s.log rfl

theorem openingFailed_opening (h : openingFailed s.log = s.connection.failure.isSome)
    (result : Receipt) :
    openingFailed (s.log ++ s.opening result) = (s.connection.get result).failure.isSome := by
  unfold opening
  cases hconnection : s.connection with
  | unopened =>
    rw [hconnection] at h
    rw [openingFailed_concat, h, LazyConnection.failure_get_unopened]
    rfl
  | opened | failed =>
    rw [hconnection] at h
    exact (congrArg openingFailed (append_nil _)).trans h

theorem failing_opening (h : openingFailed s.log = s.connection.failure.isSome) (result : Receipt) :
    failing (s.log ++ s.opening result) =
      ((s.connection.get result).failure.isSome || failing s.log) := by
  rw [failing, latestFailed_opening, openingFailed_opening h, failing, h]
  cases s.connection <;> cases result <;>
    simp [LazyConnection.get, LazyConnection.failure]

end Opening

/-- The failure that was noted is that of the log, up to what the loop is about to note. -/
def Noted (failure : Option WritebackError) (connection : LazyConnection) (failing : Bool) :
    Loop β σ ρ → Prop
  | .wrote result _ => failing = !result.isOk
  | .queried => failing = (connection.failure.isSome || failure.isSome)
  | .answering _ result => failing = failure.isSome ∧ result.isOk = !failing
  | .returned _ | .sealed _ | .ended => True
  | _ => failing = failure.isSome

structure Failures (s : System β σ ρ) : Prop where
  opened : openingFailed s.log = s.connection.failure.isSome
  noted : Noted s.pending.failure s.connection (failing s.log) s.loop

omit [WriteBatch β σ] in
theorem noted_after {failure : Option WritebackError} {connection : LazyConnection}
    {failing : Bool} (h : failing = failure.isSome) (purpose : Purpose) :
    Noted failure connection failing (Loop.after purpose : Loop β σ ρ) := by
  cases purpose <;> exact h

omit [WriteBatch β σ] in
theorem Failures.event (h : s.Failures) {event : Event β ρ} (hattempted : event.attempted? = none)
    (hopening : event.isOpeningFailure = false) :
    ({ s with log := s.log ++ [event] } : System β σ ρ).Failures := by
  refine ⟨(openingFailed_other _ hopening).trans h.opened, ?_⟩
  rw [failing_concat _ hattempted hopening]
  exact h.noted

theorem Failures.loop (h : s.Failures) (hstep : LoopStep policy s s') : s'.Failures := by
  have hopened := h.opened
  have hnoted := h.noted
  cases hstep with
  | start hloop | notified hloop _ | timer hloop _ | recvQuery hloop _ | recvFlush hloop _
  | recvClose hloop _ | closing hloop | closeConnection hloop _ | returned hloop | finish hloop =>
    rw [hloop] at hnoted
    first | exact ⟨hopened, hnoted⟩ | exact ⟨hopened, trivial⟩
  | runQuery hloop opening =>
    rw [hloop] at hnoted
    refine ⟨(openingFailed_other _ rfl).trans (openingFailed_opening hopened opening), ?_⟩
    refine (failing_concat _ rfl rfl).trans ((failing_opening hopened opening).trans ?_)
    exact congrArg _ hnoted
  | queried hloop =>
    rw [hloop] at hnoted
    refine ⟨hopened, hnoted.trans ?_⟩
    cases s.connection.failure <;> rfl
  | skip hloop _ =>
    rw [hloop] at hnoted
    exact ⟨hopened, noted_after hnoted _⟩
  | take hloop hempty =>
    rw [hloop] at hnoted
    exact ⟨(openingFailed_other _ rfl).trans hopened, (failing_concat _ rfl rfl).trans hnoted⟩
  | write hloop opening outcome =>
    refine ⟨(openingFailed_other _ rfl).trans (openingFailed_opening hopened opening), ?_⟩
    refine (failing_attempted ..).trans ?_
    rw [openingFailed_opening hopened opening]
    cases s.connection.get opening <;> simp [LazyConnection.result, LazyConnection.failure,
      Except.bind, Except.toBool]
  | wrote hloop =>
    rw [hloop] at hnoted
    refine ⟨hopened, noted_after (Eq.trans hnoted ?_) _⟩
    split <;> rfl
  | reply hloop =>
    rw [hloop] at hnoted
    refine ⟨hopened, hnoted, ?_⟩
    rw [hnoted, Pending.receipt]
    cases s.pending.failure <;> rfl
  | answer hloop =>
    rw [hloop] at hnoted
    exact ⟨(openingFailed_other _ rfl).trans hopened, (failing_concat _ rfl rfl).trans hnoted.1⟩

theorem Failures.client (h : s.Failures) (hstep : ClientStep s s') : s'.Failures := by
  cases hstep with
  | accept batch hclosed =>
    unfold System.accept
    split
    · exact h
    · exact ⟨(h.event rfl rfl).opened, (h.event rfl rfl).noted⟩
  | query | flush => exact ⟨(h.event rfl rfl).opened, (h.event rfl rfl).noted⟩
  | refuseQuery _ | refuseFlush _ => exact h.event rfl rfl

omit [WriteBatch β σ] in
theorem Failures.owner (h : s.Failures) (hstep : OwnerStep s s') : s'.Failures := by
  cases hstep with
  | close _ | drop _ | sendClose _ | dropped _ => exact ⟨h.opened, h.noted⟩
  | closeAgain _ | sealAdmission _ | recv _ _ =>
    exact ⟨(h.event rfl rfl).opened, (h.event rfl rfl).noted⟩

theorem Failures.step (h : s.Failures) (hstep : Step policy s s') : s'.Failures := by
  cases hstep with
  | loop hstep => exact h.loop hstep
  | client hstep => exact h.client hstep
  | owner hstep => exact h.owner hstep
  | tick => exact ⟨h.opened, h.noted⟩

end System

end Moli.Writeback
